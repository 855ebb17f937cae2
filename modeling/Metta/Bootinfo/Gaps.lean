/-
  Metta.Bootinfo.Gaps — which gap of a free entry the search for high memory
  keeps.

  A free entry that several entries in use overlay has several gaps, but the
  search has one running range.  An entry in use that ends inside the range
  takes everything up to its last address away, one that reaches behind the
  range takes the end.  So what is kept depends on the order of the map:

    • `KeepsFrom` — the gap that stands, said without the loop,
    • `foldl_cutRange_iff` — the loop ends with exactly that gap,
    • `Keeps` — the same for an entry, cut to 32 bits,
    • `Decides`, `Decides.search` — the entry whose gap is the answer.
-/
import Metta.Bootinfo.HighMem

namespace Metta.Bootinfo

open Metta.Machine Page

/-! ## §1. The gap that stands. -/

/-- Once `front` is gone through, `x` is not behind the end of the range: it is not behind
the limit, nor behind the start of an entry that ends behind `s`. -/
def Reaches (limit s : Nat) (front : List MmapEntry) (x : Nat) : Prop :=
  x ≤ limit ∧ ∀ f ∈ front, f.isFree = false → s < f.end → x ≤ f.baseAddr

/-- `[s, t)` is the gap of `[start, limit)` that the order of the entries lets stand. -/
structure KeepsFrom (es : List MmapEntry) (start limit s t : Nat) : Prop where
  inside : start ≤ s ∧ s < t ∧ t ≤ limit
  /-- Every entry in use is on the left of the gap or on its right. -/
  sides : ∀ f ∈ es, f.isFree = false → f.end ≤ s ∨ t ≤ f.baseAddr
  /-- One on the right is behind the range when its turn comes, or runs out of it. -/
  stands : ∀ front f back, es = front ++ f :: back → f.isFree = false → s < f.end →
    ¬ (Reaches limit s front f.baseAddr ∧ Reaches limit s front f.end)
  left : s = start ∨ ∃ front f back, es = front ++ f :: back ∧ f.isFree = false ∧ f.end = s ∧
    Reaches limit s front f.baseAddr
  right : t = limit ∨ ∃ f ∈ es, f.isFree = false ∧ s < f.end ∧ f.baseAddr = t

section Splits

variable {α : Type} {P : List α → α → Prop} {a : α} {as : List α}

/-- An element of a list is its head or in its tail. -/
theorem forall_split_cons :
    (∀ front x back, a :: as = front ++ x :: back → P front x) ↔
      P [] a ∧ ∀ front x back, as = front ++ x :: back → P (a :: front) x := by
  constructor
  · intro h
    exact ⟨h [] a as rfl, fun front x back hsplit => h (a :: front) x back (by rw [hsplit]; rfl)⟩
  · rintro ⟨hhead, htail⟩ front x back hsplit
    cases front with
    | nil =>
        obtain ⟨rfl, -⟩ := List.cons.inj hsplit
        exact hhead
    | cons b front =>
        obtain ⟨rfl, htl⟩ := List.cons.inj hsplit
        exact htail front x back htl

theorem exists_split_cons :
    (∃ front x back, a :: as = front ++ x :: back ∧ P front x) ↔
      P [] a ∨ ∃ front x back, as = front ++ x :: back ∧ P (a :: front) x := by
  have h : (¬ ∀ front x back, a :: as = front ++ x :: back → ¬ P front x) ↔
      ¬ (¬ P [] a ∧ ∀ front x back, as = front ++ x :: back → ¬ P (a :: front) x) :=
    not_congr forall_split_cons
  push Not at h
  rw [h]
  tauto

end Splits

variable {es : List MmapEntry} {f : MmapEntry} {start limit s t x : Nat}

theorem reaches_nil : Reaches limit s [] x ↔ x ≤ limit := by simp [Reaches]

/-- An entry that ends behind `s` moves the end of the range. -/
theorem reaches_cons (front : List MmapEntry) :
    Reaches limit s (f :: front) x ↔
      Reaches limit s front x ∧ (f.isFree = false → s < f.end → x ≤ f.baseAddr) := by
  simp only [Reaches, List.forall_mem_cons]
  tauto

/-- What an entry at the head says about the gap. -/
theorem keepsFrom_cons :
    KeepsFrom (f :: es) start limit s t ↔
      (start ≤ s ∧ s < t ∧ t ≤ limit) ∧
      (f.isFree = false → f.end ≤ s ∨ t ≤ f.baseAddr) ∧
      (f.isFree = false → s < f.end → ¬ (f.baseAddr ≤ limit ∧ f.end ≤ limit)) ∧
      (∀ g ∈ es, g.isFree = false → g.end ≤ s ∨ t ≤ g.baseAddr) ∧
      (∀ front g back, es = front ++ g :: back → g.isFree = false → s < g.end →
        ¬ (Reaches limit s (f :: front) g.baseAddr ∧ Reaches limit s (f :: front) g.end)) ∧
      ((s = start ∨ f.isFree = false ∧ f.end = s ∧ f.baseAddr ≤ limit) ∨
        ∃ front g back, es = front ++ g :: back ∧ g.isFree = false ∧ g.end = s ∧
          Reaches limit s (f :: front) g.baseAddr) ∧
      ((t = limit ∨ f.isFree = false ∧ s < f.end ∧ f.baseAddr = t) ∨
        ∃ g ∈ es, g.isFree = false ∧ s < g.end ∧ g.baseAddr = t) := by
  constructor
  · rintro ⟨hin, hsides, hstands, hleft, hright⟩
    obtain ⟨hside, hsides⟩ := List.forall_mem_cons.mp hsides
    obtain ⟨hstand, hstands⟩ := forall_split_cons.mp hstands
    rw [exists_split_cons] at hleft
    simp only [List.mem_cons, exists_eq_or_imp] at hright
    simp only [reaches_nil] at hstand hleft
    exact ⟨hin, hside, hstand, hsides, hstands, or_assoc.mpr hleft, or_assoc.mpr hright⟩
  · rintro ⟨hin, hside, hstand, hsides, hstands, hleft, hright⟩
    refine ⟨hin, List.forall_mem_cons.mpr ⟨hside, hsides⟩, forall_split_cons.mpr ⟨?_, hstands⟩,
      ?_, ?_⟩
    · simpa only [reaches_nil] using hstand
    · rw [exists_split_cons]
      simp only [reaches_nil]
      exact or_assoc.mp hleft
    · simp only [List.mem_cons, exists_eq_or_imp]
      exact or_assoc.mp hright

/-- A free entry at the head changes nothing. -/
theorem keepsFrom_cons_free (hfree : f.isFree = true) :
    KeepsFrom (f :: es) start limit s t ↔ KeepsFrom es start limit s t := by
  rw [keepsFrom_cons]
  simp only [reaches_cons, hfree, Bool.true_eq_false, false_implies, and_true, false_and, or_false,
    true_and]
  exact ⟨fun ⟨hin, hsides, hstands, hleft, hright⟩ => ⟨hin, hsides, hstands, hleft, hright⟩,
    fun ⟨hin, hsides, hstands, hleft, hright⟩ => ⟨hin, hsides, hstands, hleft, hright⟩⟩

/-- An entry in use at the head that changes the range from `[start, limit)` to
`[start', limit')`. -/
theorem keepsFrom_cons_used {start' limit' : Nat} (hfree : f.isFree = false)
    (hin : (start ≤ s ∧ s < t ∧ t ≤ limit) ∧ (f.end ≤ s ∨ t ≤ f.baseAddr) ∧
        (s < f.end → ¬ (f.baseAddr ≤ limit ∧ f.end ≤ limit)) ↔
      start' ≤ s ∧ s < t ∧ t ≤ limit')
    (hreach : start' ≤ s ∧ s < t ∧ t ≤ limit' →
      ∀ x, (x ≤ limit ∧ (s < f.end → x ≤ f.baseAddr)) ↔ x ≤ limit')
    (hleft : start' ≤ s ∧ s < t ∧ t ≤ limit' →
      ((s = start ∨ f.end = s ∧ f.baseAddr ≤ limit) ↔ s = start'))
    (hright : start' ≤ s ∧ s < t ∧ t ≤ limit' →
      ((t = limit ∨ s < f.end ∧ f.baseAddr = t) ↔ t = limit')) :
    KeepsFrom (f :: es) start limit s t ↔ KeepsFrom es start' limit' s t := by
  have hreaches (h : start' ≤ s ∧ s < t ∧ t ≤ limit') (front : List MmapEntry) (x : Nat) :
      Reaches limit s (f :: front) x ↔ Reaches limit' s front x := by
    rw [reaches_cons, Reaches, Reaches, ← hreach h x]
    simp only [hfree, true_implies]
    exact ⟨fun ⟨⟨hx, hall⟩, hhead⟩ => ⟨⟨hx, hhead⟩, hall⟩,
      fun ⟨⟨hx, hhead⟩, hall⟩ => ⟨⟨hx, hall⟩, hhead⟩⟩
  rw [keepsFrom_cons]
  simp only [hfree, true_implies, true_and]
  constructor
  · rintro ⟨hbounds, hside, hstand, hsides, hstands, hl, hr⟩
    have h := hin.mp ⟨hbounds, hside, hstand⟩
    simp only [hreaches h] at hstands hl
    exact ⟨h, hsides, hstands, by rwa [hleft h] at hl, by rwa [hright h] at hr⟩
  · rintro ⟨h, hsides, hstands, hl, hr⟩
    obtain ⟨hbounds, hside, hstand⟩ := hin.mpr h
    simp only [hreaches h]
    exact ⟨hbounds, hside, hstand, hsides, hstands, by rwa [hleft h], by rwa [hright h]⟩

/-! ## §2. The loop. -/

/-- What an entry does to a range that is not empty and does not reach 4 GiB. -/
theorem cutRange_cases {r : Extent} (hpos : 0 < r.length) (hr : r.start + r.length < wordSize) :
    (f.isFree = true ∨ f.end ≤ r.start ∨ r.start + r.length < f.baseAddr) ∧ cutRange r f = r ∨
    f.isFree = false ∧ f.baseAddr ≤ r.start + r.length ∧
      ((r.start < f.end ∧ f.end ≤ r.start + r.length ∧
          cutRange r f = ⟨f.end, r.start + r.length - f.end⟩) ∨
        (r.start < f.baseAddr ∧ r.start + r.length < f.end ∧
          cutRange r f = ⟨r.start, f.baseAddr - r.start⟩) ∨
        (f.baseAddr ≤ r.start ∧ r.start + r.length < f.end ∧ cutRange r f = ⟨0, 0⟩)) := by
  have hend : add32 r.start r.length = r.start + r.length := Nat.mod_eq_of_lt hr
  cases hfree : f.isFree with
  | true => exact .inl ⟨.inl rfl, by simp [cutRange, hfree]⟩
  | false =>
      simp only [cutRange, hend, hfree, Nat.ne_of_gt hpos, if_false, Bool.false_eq_true]
      by_cases hapart : f.end < r.start ∨ f.baseAddr > r.start + r.length
      · exact .inl ⟨.inr (by omega), if_pos hapart⟩
      rw [if_neg hapart]
      by_cases hbehind : f.end > r.start
      · refine .inr ⟨trivial, by omega, ?_⟩
        rw [if_pos hbehind, if_neg (by omega)]
        by_cases hout : f.end > r.start + r.length
        · rw [if_pos hout]
          by_cases hstart : f.baseAddr > r.start
          · exact .inr (.inl ⟨hstart, hout, by
              rw [if_pos hstart, Nat.mod_eq_of_lt (by omega)]⟩)
          · exact .inr (.inr ⟨by omega, hout, if_neg hstart⟩)
        · exact .inl ⟨hbehind, by omega, by
            rw [if_neg hout, Nat.mod_eq_of_lt (by omega), Nat.mod_eq_of_lt (by omega)]⟩
      · exact .inl ⟨.inr (by omega), if_neg hbehind⟩

/-- One step of the loop. -/
theorem keepsFrom_cutRange (f : MmapEntry) (es : List MmapEntry) (s t : Nat) {r : Extent}
    (hr : r.start + r.length < wordSize) :
    (cutRange r f).start + (cutRange r f).length < wordSize ∧
    (KeepsFrom (f :: es) r.start (r.start + r.length) s t ↔
      KeepsFrom es (cutRange r f).start ((cutRange r f).start + (cutRange r f).length) s t) := by
  by_cases hzero : r.length = 0
  · have hcut : cutRange r f = r := by simp [cutRange, hzero]
    rw [hcut, hzero]
    exact ⟨by omega, fun h => absurd h.inside (by omega), fun h => absurd h.inside (by omega)⟩
  rcases cutRange_cases (f := f) (Nat.pos_of_ne_zero hzero) hr with
    ⟨hskip, hcut⟩ | ⟨hfree, hreach, hcut⟩
  · rw [hcut]
    refine ⟨hr, ?_⟩
    cases hfree : f.isFree with
    | true => exact keepsFrom_cons_free hfree
    | false =>
        rw [hfree] at hskip
        refine keepsFrom_cons_used hfree ?_ (fun _ x => ?_) (fun _ => ?_) (fun _ => ?_) <;> grind
  · rcases hcut with ⟨hlo, hhi, hcut⟩ | ⟨hlo, hhi, hcut⟩ | ⟨hlo, hhi, hcut⟩ <;>
      rw [hcut] <;> simp only
    -- the start moves to the last address of the entry
    · refine ⟨by omega, keepsFrom_cons_used hfree ?_ (fun _ x => ?_) (fun _ => ?_)
        (fun _ => ?_)⟩ <;> omega
    -- the end moves to the start of the entry
    · refine ⟨by omega, keepsFrom_cons_used hfree ?_ (fun _ x => ?_) (fun _ => ?_)
        (fun _ => ?_)⟩ <;> omega
    -- nothing is left
    · refine ⟨by decide, keepsFrom_cons_used hfree ?_ (fun _ x => ?_) (fun _ => ?_)
        (fun _ => ?_)⟩ <;> omega

/-- **The running range ends as the gap that stands**: when the range does not reach 4 GiB,
the loop over the map leaves exactly the gap that `KeepsFrom` describes. -/
theorem foldl_cutRange_iff (es : List MmapEntry) (r : Extent)
    (hr : r.start + r.length < wordSize) (s n : Nat) :
    es.foldl cutRange r = ⟨s, n⟩ ∧ 0 < n ↔
      KeepsFrom es r.start (r.start + r.length) s (s + n) := by
  induction es generalizing r with
  | nil =>
      obtain ⟨start, length⟩ := r
      constructor
      · rintro ⟨hr, hn⟩
        obtain ⟨rfl, rfl⟩ := Extent.mk.inj hr
        exact ⟨by simp only; omega, by simp, by simp, .inl rfl, .inl rfl⟩
      · rintro ⟨hin, -, -, hleft, hright⟩
        have hs : s = start := hleft.resolve_right (by simp)
        have ht : s + n = start + length := hright.resolve_right (by simp)
        exact ⟨by rw [List.foldl_nil, hs, show n = length by omega], by omega⟩
  | cons f es ih =>
      obtain ⟨hcut, hiff⟩ := keepsFrom_cutRange f es s (s + n) hr
      rw [List.foldl_cons, ih _ hcut, hiff]

/-- A range that reaches 4 GiB is never cut: it stays, or an entry over all of it ends it. -/
theorem foldl_cutRange_wraps (es : List MmapEntry) (r : Extent) (hs : r.start < wordSize)
    (hn : r.length < wordSize) (hr : wordSize ≤ r.start + r.length) :
    es.foldl cutRange r = if (∃ f ∈ es, f.isFree = false ∧
      f.baseAddr ≤ r.start + r.length - wordSize ∧ r.start < f.end) then ⟨0, 0⟩ else r := by
  have hend : add32 r.start r.length = r.start + r.length - wordSize := by
    rw [add32, Nat.mod_eq_sub_mod hr]
    exact Nat.mod_eq_of_lt (by omega)
  have hempty : ∀ es : List MmapEntry, es.foldl cutRange ⟨0, 0⟩ = ⟨0, 0⟩ := by
    intro es
    induction es with
    | nil => rfl
    | cons f es ih => rw [List.foldl_cons, show cutRange ⟨0, 0⟩ f = ⟨0, 0⟩ by simp [cutRange], ih]
  induction es with
  | nil => simp
  | cons f es ih =>
      have hcut : cutRange r f = if f.isFree = false ∧
          f.baseAddr ≤ r.start + r.length - wordSize ∧ r.start < f.end then ⟨0, 0⟩ else r := by
        have hpos : r.length ≠ 0 := by omega
        simp only [cutRange, hend, hpos, if_false]
        generalize f.end = last
        split_ifs <;> first | rfl | omega | simp_all
      rw [List.foldl_cons, hcut]
      by_cases hf : f.isFree = false ∧ f.baseAddr ≤ r.start + r.length - wordSize ∧
          r.start < f.end
      · rw [if_pos hf, hempty, if_pos ⟨f, List.mem_cons_self, hf⟩]
      · rw [if_neg hf, ih]
        simp only [List.mem_cons, exists_eq_or_imp, hf, false_or]

/-! ## §3. The answer of the search. -/

/-- The range of an entry before anything is cut off. -/
def Page.MmapEntry.seen (e : MmapEntry) : Extent := ⟨e.baseAddr % wordSize, e.length % wordSize⟩

/-- The range reaches 4 GiB, where its end is zero again. -/
def Page.MmapEntry.Wraps (e : MmapEntry) : Prop := wordSize ≤ e.seen.start + e.seen.length

/-- `[s, t)` is what the map leaves of `e`. -/
def Keeps (es : List MmapEntry) (e : MmapEntry) (s t : Nat) : Prop :=
  (¬ e.Wraps → KeepsFrom es e.seen.start (e.seen.start + e.seen.length) s t) ∧
  (e.Wraps → s = e.seen.start ∧ t = e.seen.start + e.seen.length ∧
    ¬ ∃ f ∈ es, f.isFree = false ∧ f.baseAddr ≤ t - wordSize ∧ s < f.end)

theorem keeps_iff (es : List MmapEntry) (e : MmapEntry) (s n : Nat) :
    es.foldl cutRange e.seen = ⟨s, n⟩ ∧ 0 < n ↔ Keeps es e s (s + n) := by
  by_cases hwraps : e.Wraps
  · have hs : e.seen.start < wordSize := Nat.mod_lt _ (by decide)
    have hn : e.seen.length < wordSize := Nat.mod_lt _ (by decide)
    have hr : wordSize ≤ e.seen.start + e.seen.length := hwraps
    simp only [Keeps, hwraps, not_true_eq_false, false_implies, true_implies, true_and]
    rw [foldl_cutRange_wraps es _ hs hn hwraps]
    constructor
    · rintro ⟨hrange, hpos⟩
      split at hrange
      · obtain ⟨rfl, rfl⟩ := Extent.mk.inj hrange
        exact absurd hpos (by decide)
      · next hnone =>
          rw [hrange] at hnone ⊢
          exact ⟨rfl, rfl, hnone⟩
    · rintro ⟨rfl, ht, hnone⟩
      rw [ht] at hnone
      rw [if_neg hnone]
      exact ⟨by rw [show n = e.seen.length by omega], by omega⟩
  · simp only [Keeps, hwraps, not_false_eq_true, false_implies, true_implies, and_true]
    exact foldl_cutRange_iff es e.seen (by simpa [MmapEntry.Wraps] using hwraps) s n

/-- The entry is looked at, and more than `bytes` bytes of it are left. -/
def Large (es : List MmapEntry) (bytes : Nat) (e : MmapEntry) (s t : Nat) : Prop :=
  e.isFree = true ∧ lowerBound ≤ e.baseAddr ∧ Keeps es e s t ∧ bytes < t - s

/-- The last entry that is large enough decides. -/
def Decides (es : List MmapEntry) (bytes : Nat) (e : MmapEntry) (s t : Nat) : Prop :=
  Large es bytes e s t ∧ ∃ front back, es = front ++ e :: back ∧
    ∀ e' ∈ back, ∀ s' t', ¬ Large es bytes e' s' t'

/-- What the search does with one entry. -/
def consider (es : List MmapEntry) (bytes firstRange : Nat) (e : MmapEntry) : Nat :=
  if !e.isFree || e.baseAddr < lowerBound then firstRange
  else
    let range := es.foldl cutRange ⟨e.baseAddr % wordSize, e.length % wordSize⟩
    if range.length > bytes then range.start else firstRange

variable {bytes : Nat} {e : MmapEntry}

theorem consider_of_large (firstRange : Nat) (h : Large es bytes e s t) :
    consider es bytes firstRange e = s := by
  obtain ⟨hfree, hhigh, hkeeps, hsize⟩ := h
  obtain ⟨n, rfl⟩ : ∃ n, t = s + n := ⟨t - s, by omega⟩
  have hrange := ((keeps_iff es e s n).mpr hkeeps).1
  rw [MmapEntry.seen] at hrange
  rw [consider, hrange, if_neg (by simp [hfree, hhigh])]
  exact if_pos (by simpa using hsize)

theorem consider_of_not_large (firstRange : Nat) (h : ∀ s t, ¬ Large es bytes e s t) :
    consider es bytes firstRange e = firstRange := by
  rw [consider]
  split
  · rfl
  · next hhigh =>
      refine if_neg fun hsize => ?_
      obtain ⟨s, n, hrange⟩ : ∃ s n, es.foldl cutRange e.seen = ⟨s, n⟩ := ⟨_, _, rfl⟩
      rw [← MmapEntry.seen, hrange] at hsize
      have hkeeps := (keeps_iff es e s n).mp ⟨hrange, lt_of_le_of_lt (Nat.zero_le _) hsize⟩
      refine h s (s + n) ⟨by simpa using And.left (by simpa using hhigh), ?_, hkeeps, ?_⟩
      · simpa using And.right (by simpa using hhigh)
      · simpa using hsize

theorem foldl_consider (es' : List MmapEntry) (firstRange : Nat)
    (h : ∀ e ∈ es', ∀ s t, ¬ Large es bytes e s t) :
    es'.foldl (consider es bytes) firstRange = firstRange := by
  induction es' with
  | nil => rfl
  | cons e es' ih =>
      obtain ⟨he, hes⟩ := List.forall_mem_cons.mp h
      rw [List.foldl_cons, consider_of_not_large _ he, ih hes]

theorem Decides.foldl_consider (h : Decides es bytes e s t) (firstRange : Nat) :
    es.foldl (consider es bytes) firstRange = s := by
  obtain ⟨hlarge, front, back, hsplit, hback⟩ := h
  have hfold : ∀ es', es' = front ++ e :: back → es'.foldl (consider es bytes) firstRange = s := by
    rintro es' rfl
    rw [List.foldl_append, List.foldl_cons, consider_of_large _ hlarge,
      Bootinfo.foldl_consider back s hback]
  exact hfold es hsplit

/-- When an entry is large enough, one decides. -/
theorem exists_decides (h : ∃ e ∈ es, ∃ s t, Large es bytes e s t) :
    ∃ e s t, Decides es bytes e s t := by
  have hlast : ∀ es' : List MmapEntry, (∃ e ∈ es', ∃ s t, Large es bytes e s t) →
      ∃ e s t, Large es bytes e s t ∧ ∃ front back, es' = front ++ e :: back ∧
        ∀ e' ∈ back, ∀ s' t', ¬ Large es bytes e' s' t' := by
    intro es'
    induction es' with
    | nil => simp
    | cons f es' ih =>
        intro hsome
        by_cases hrest : ∃ e ∈ es', ∃ s t, Large es bytes e s t
        · obtain ⟨e, s, t, hlarge, front, back, hsplit, hback⟩ := ih hrest
          exact ⟨e, s, t, hlarge, f :: front, back, by rw [hsplit]; rfl, hback⟩
        · obtain ⟨e, he, s, t, hlarge⟩ := hsome
          rcases List.mem_cons.mp he with rfl | he
          · refine ⟨e, s, t, hlarge, [], es', rfl, fun e' he' s' t' hlarge' => ?_⟩
            exact hrest ⟨e', he', s', t', hlarge'⟩
          · exact absurd ⟨e, he, s, t, hlarge⟩ hrest
  obtain ⟨e, s, t, hlarge, hsplit⟩ := hlast es h
  exact ⟨e, s, t, hlarge, hsplit⟩

/-- **The answer of the search**: the start of the gap that decides, or all ones. -/
theorem findHighmemRangeOfAtLeast_eq {b : Page} {log : List Record} {fuel : Nat}
    (h : Holds b log) (hfuel : pageSize ≤ fuel) (bytes : Nat) :
    ∃ a, b.findHighmemRangeOfAtLeast bytes fuel = some a ∧
      (∀ e s t, Decides (log.filterMap Record.mmapEntry) bytes e s t → a = s) ∧
      ((¬ ∃ e s t, Decides (log.filterMap Record.mmapEntry) bytes e s t) → a = 0xffffffff) := by
  have hrun : b.findHighmemRangeOfAtLeast bytes fuel = some ((log.filterMap Record.mmapEntry).foldl
      (consider (log.filterMap Record.mmapEntry) bytes) 0xffffffff) := by
    rw [findHighmemRangeOfAtLeast, h.mmapEntries hfuel]
    rfl
  refine ⟨_, hrun, fun e s t hdecides => hdecides.foldl_consider _, fun hnone => ?_⟩
  refine foldl_consider _ _ fun e he s t hlarge => ?_
  exact hnone (exists_decides ⟨e, he, s, t, hlarge⟩)

end Metta.Bootinfo
