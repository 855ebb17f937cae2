/-
  Metta.Bootinfo.UseMemory — early memory reservations, `use_memory` of
  kernel/arch/shared/bootinfo.cpp.

  The last entry of the memory map that contains a range decides whether the
  range may be used, and a range that is used is put on top of the map.  An
  entry that has only a part of the range is never looked at, so a range may
  be granted that runs into one that is in use.

    • `Page.useMemory` — the call, `useMemory_cases` — what it can do,
    • `Clear` — no entry in use has a part of the range, or is hidden,
    • `clear_reservations_apart` — runs of clear calls never collide.
-/
import Metta.Bootinfo.Log
import Metta.Machine.Cover

namespace Metta.Bootinfo

open Metta.Machine

/-! ## §1. The call. -/

namespace Page

namespace MmapEntry

/-- The addresses of the entry. -/
def extent (e : MmapEntry) : Extent := ⟨e.baseAddr, e.length⟩

/-- `mmap_entry_t::end`. -/
def «end» (e : MmapEntry) : Nat := (e.baseAddr + e.length + (2 ^ 64 - 1)) % 2 ^ 64

/-- `mmap_entry_t::is_free`. -/
def isFree (e : MmapEntry) : Bool := e.type == 1

/-- The entry contains the range.  Both sides have 64 bits, and the range is behind the
start of the entry when they are compared. -/
def contains (e : MmapEntry) (start size : BitVec 32) : Bool :=
  start.toNat ≥ e.baseAddr && e.length ≥ size.toNat + (start.toNat - e.baseAddr)

/-- How the range cuts the entry. -/
def nWay (e : MmapEntry) (start size : BitVec 32) : Int :=
  if start.toNat = e.baseAddr ∧ size.toNat = e.length then 0
  else if start.toNat = e.baseAddr then 1
  else if (start + size).toNat = (e.end + 1) % 2 ^ 64 then 2
  else 3

end MmapEntry

/-- `find_matching_entry`: the entry, and how it is cut. -/
def findMatchingEntry (b : Page) (start size : BitVec 32) (fuel : Nat) :
    Option (Option MmapEntry × Int) :=
  (b.mmapEntries fuel).map fun es =>
    es.foldl (fun found e =>
      if e.contains start size then (some e, e.nWay start size) else found) (none, -1)

/-- `use_memory`. -/
def useMemory (b : Page) (start size type : BitVec 32) (fuel : Nat) : Option (Bool × Page) :=
  (b.findMatchingEntry start size fuel).map fun found =>
    match found.1 with
    | none => (false, b)
    | some origEntry =>
        if !origEntry.isFree then (false, b)
        else b.appendMmap (start.setWidth 64) (size.setWidth 64) type

end Page

open Page

/-- The arguments of a call. -/
structure Request where
  start : BitVec 32
  size : BitVec 32
  type : BitVec 32
  deriving DecidableEq

namespace Request

/-- The addresses that are asked for. -/
def extent (u : Request) : Extent := ⟨u.start.toNat, u.size.toNat⟩

/-- The entry that is put on the map. -/
def entry (u : Request) : MmapEntry := ⟨u.start.toNat, u.size.toNat, u.type.toNat⟩

end Request

/-- A call of a run: the map it finds, what is asked for and the answer. -/
structure Step where
  map : List MmapEntry
  request : Request
  granted : Bool
  deriving DecidableEq

/-- Calls one after the other. -/
def useAll (fuel : Nat) : Page → List Request → Option (List Step × Page)
  | b, [] => some ([], b)
  | b, u :: us => do
      let map ← b.mmapEntries fuel
      let (granted, b') ← b.useMemory u.start u.size u.type fuel
      let (steps, b'') ← useAll fuel b' us
      return (⟨map, u, granted⟩ :: steps, b'')

/-! ## §2. What a call can do. -/

/-- The search ends with the last entry that contains the range. -/
theorem foldl_contains (es : List MmapEntry) (start size : BitVec 32)
    (found : Option MmapEntry × Int) :
    (es.foldl (fun found e =>
      if e.contains start size then (some e, e.nWay start size) else found) found).1
      = ((es.filter fun e => e.contains start size).getLast?).or found.1 := by
  induction es using List.reverseRecOn with
  | nil => rfl
  | append_singleton es e ih =>
      rw [List.foldl_append, List.filter_append, List.foldl_cons, List.foldl_nil]
      cases he : e.contains start size with
      | true => simp [he]
      | false => simp [he, ih]

variable {b : Page} {log : List Record} {fuel : Nat}

/-- **A call** is refused and changes nothing, or the last entry that contains the range
is free and the range is put on the map. -/
theorem useMemory_cases (h : Holds b log) (hfuel : pageSize ≤ fuel) (u : Request) :
    b.useMemory u.start u.size u.type fuel = some (false, b) ∨
    ∃ e b', b.useMemory u.start u.size u.type fuel = some (true, b') ∧
      ((log.filterMap Record.mmapEntry).filter fun e => e.contains u.start u.size).getLast?
        = some e ∧ e.isFree = true ∧
      Holds b' (log ++ [.mmap (u.start.setWidth 64) (u.size.setWidth 64) u.type]) := by
  have hfind := foldl_contains (log.filterMap Record.mmapEntry) u.start u.size (none, -1)
  rw [Option.or_none] at hfind
  rw [useMemory, findMatchingEntry, h.mmapEntries hfuel, Option.map_some, Option.map_some, hfind]
  cases hlast : ((log.filterMap Record.mmapEntry).filter
      fun e => e.contains u.start u.size).getLast? with
  | none => exact .inl rfl
  | some e =>
      cases hfree : e.isFree with
      | false => exact .inl (by simp [hfree])
      | true =>
          simp only [hfree, Bool.not_true, Bool.false_eq_true, if_false, appendMmap]
          rcases append_cases h (.mmap (u.start.setWidth 64) (u.size.setWidth 64) u.type) with
            hr | ⟨b', hr, h'⟩
          · exact .inl (by rw [hr])
          · exact .inr ⟨e, b', by rw [hr], rfl, hfree, h'⟩

theorem contains_iff (e : MmapEntry) (u : Request) :
    e.contains u.start u.size = true ↔ u.extent.Within e.extent := by
  simp only [MmapEntry.contains, Extent.Within, Request.extent, MmapEntry.extent,
    Bool.and_eq_true, decide_eq_true_eq]
  omega

theorem mmapEntry_request (u : Request) :
    Record.mmapEntry (.mmap (u.start.setWidth 64) (u.size.setWidth 64) u.type) = some u.entry := by
  have hstart := lt_trans u.start.isLt (by decide : 2 ^ 32 < 2 ^ 64)
  have hsize := lt_trans u.size.isLt (by decide : 2 ^ 32 < 2 ^ 64)
  rw [Record.mmapEntry, BitVec.toNat_setWidth, BitVec.toNat_setWidth, Nat.mod_eq_of_lt hstart,
    Nat.mod_eq_of_lt hsize]
  rfl

/-! ## §3. Whole runs. -/

/-- The steps follow one another, from the map on: a call is granted when the last entry
that contains its range is free, and then the next call finds the range on the map. -/
def Follows : List MmapEntry → List Step → Prop
  | _, [] => True
  | map, s :: steps =>
      s.map = map ∧
      (s.granted = true → ∃ e, e.isFree = true ∧
        (map.filter fun e => e.contains s.request.start s.request.size).getLast? = some e) ∧
      Follows (if s.granted then map ++ [s.request.entry] else map) steps

theorem useAll_follows (h : Holds b log) (hfuel : pageSize ≤ fuel) (us : List Request) :
    ∃ steps b', useAll fuel b us = some (steps, b') ∧ steps.map Step.request = us ∧
      Follows (log.filterMap Record.mmapEntry) steps := by
  induction us generalizing b log with
  | nil => exact ⟨[], b, rfl, rfl, trivial⟩
  | cons u us ih =>
      have hmap := h.mmapEntries hfuel
      rcases useMemory_cases h hfuel u with hu | ⟨e, b1, hu, hlast, hfree, h1⟩
      · obtain ⟨steps, b', hrun, hus, hsteps⟩ := ih h
        refine ⟨⟨_, u, false⟩ :: steps, b', ?_, ?_, rfl, ?_, hsteps⟩
        · simp [useAll, hmap, hu, hrun]
        · rw [List.map_cons, hus]
        · intro hgranted
          cases hgranted
      · obtain ⟨steps, b', hrun, hus, hsteps⟩ := ih h1
        rw [List.filterMap_append, List.filterMap_cons_some (mmapEntry_request u)] at hsteps
        refine ⟨⟨_, u, true⟩ :: steps, b', ?_, ?_, rfl, fun _ => ⟨e, hfree, hlast⟩, hsteps⟩
        · simp [useAll, hmap, hu, hrun]
        · rw [List.map_cons, hus]

/-- What is on the map stays there. -/
theorem Follows.mem_map {map : List MmapEntry} {steps : List Step} (h : Follows map steps)
    {e : MmapEntry} (he : e ∈ map) : ∀ s ∈ steps, e ∈ s.map := by
  induction steps generalizing map with
  | nil => simp
  | cons s steps ih =>
      obtain ⟨hmap, -, hrest⟩ := h
      intro s' hs'
      rcases List.mem_cons.mp hs' with rfl | hs'
      · rwa [hmap]
      · refine ih hrest ?_ s' hs'
        split
        · exact List.mem_append_left _ he
        · exact he

theorem Follows.granted {map : List MmapEntry} {steps : List Step} (h : Follows map steps) :
    ∀ s ∈ steps, s.granted = true → ∃ e, e.isFree = true ∧
      (s.map.filter fun e => e.contains s.request.start s.request.size).getLast? = some e := by
  induction steps generalizing map with
  | nil => simp
  | cons s steps ih =>
      obtain ⟨rfl, hs, hrest⟩ := h
      intro s' hs'
      rcases List.mem_cons.mp hs' with rfl | hs'
      · exact hs
      · exact ih hrest s' hs'

/-! ## §4. When reservations do not collide. -/

namespace Step

/-- A range that is granted lies in one free entry, and no entry in use has any of it. -/
def Safe (s : Step) : Prop :=
  s.granted = true →
    (∃ e ∈ s.map, e.isFree = true ∧ s.request.extent.Within e.extent) ∧
    ∀ e ∈ s.map, e.isFree = false → s.request.extent.Apart e.extent

/-- An entry in use that has some of the range has all of it, and no free entry that has
all of it stands behind. -/
def Clear (s : Step) : Prop :=
  ∀ front e back, s.map = front ++ e :: back → e.isFree = false →
    ¬ s.request.extent.Apart e.extent →
    s.request.extent.Within e.extent ∧
    ∀ e' ∈ back, e'.isFree = true → ¬ s.request.extent.Within e'.extent

end Step

/-- The last entry that contains the range decides, and what is clear it cannot miss. -/
theorem Step.safe_of_clear {s : Step} (hclear : s.Clear)
    (hlast : s.granted = true → ∃ e, e.isFree = true ∧
      (s.map.filter fun e => e.contains s.request.start s.request.size).getLast? = some e) :
    s.Safe := by
  intro hgranted
  obtain ⟨e, hfree, he⟩ := hlast hgranted
  obtain ⟨hmem, hwithin⟩ := List.mem_filter.mp (List.mem_of_getLast? he)
  refine ⟨⟨e, hmem, hfree, (contains_iff e s.request).mp hwithin⟩, ?_⟩
  intro used hused hin
  by_contra hmeet
  obtain ⟨front, back, hmap⟩ := List.append_of_mem hused
  obtain ⟨hall, hback⟩ := hclear front used back hmap hin hmeet
  have hpos : (used.contains s.request.start s.request.size) = true :=
    (contains_iff used s.request).mpr hall
  -- the entry in use passes the test, so the last one that passes is it or stands behind it
  rw [hmap, List.filter_append, List.filter_cons, if_pos hpos, List.getLast?_append_cons,
    List.getLast?_cons] at he
  cases hb : (back.filter fun e => e.contains s.request.start s.request.size).getLast? with
  | none =>
      rw [hb, Option.getD_none, Option.some_inj] at he
      rw [he, hfree] at hin
      cases hin
  | some e' =>
      rw [hb, Option.getD_some, Option.some_inj] at he
      obtain ⟨hmem', hwithin'⟩ := List.mem_filter.mp (List.mem_of_getLast? hb)
      exact hback e' hmem' (he ▸ hfree) ((contains_iff e' s.request).mp hwithin')

/-- A range that is granted without being clear runs into an entry in use. -/
theorem Step.clear_of_safe {s : Step} (hgranted : s.granted = true) (hsafe : s.Safe) : s.Clear := by
  intro front e back hmap hin hmeet
  have hmem : e ∈ s.map := by
    rw [hmap]
    exact List.mem_append_right _ List.mem_cons_self
  exact absurd ((hsafe hgranted).2 e hmem hin) hmeet

/-- In a run of safe steps the ranges that are put in use are apart: each finds those
before it on the map. -/
theorem Follows.pairwise {map : List MmapEntry} {steps : List Step} (h : Follows map steps)
    (hsafe : ∀ s ∈ steps, s.Safe) :
    (steps.filter fun s => s.granted && !s.request.entry.isFree).Pairwise
      fun s s' => s.request.extent.Apart s'.request.extent := by
  induction steps generalizing map with
  | nil => simp
  | cons s steps ih =>
      obtain ⟨-, -, hrest⟩ := h
      have htail := ih hrest fun s' hs' => hsafe s' (List.mem_cons_of_mem _ hs')
      cases huse : s.granted && !s.request.entry.isFree with
      | false => rwa [List.filter_cons_of_neg (by simp [huse])]
      | true =>
          obtain ⟨hgranted, hin⟩ := Bool.and_eq_true_iff.mp huse
          rw [if_pos hgranted] at hrest
          rw [List.filter_cons_of_pos (by simp [huse]), List.pairwise_cons]
          refine ⟨fun s' hs' p hp => ?_, htail⟩
          obtain ⟨hmem, hgranted'⟩ := List.mem_filter.mp hs'
          have hfound := hrest.mem_map (List.mem_append_right _ List.mem_cons_self) s' hmem
          have hapart := (hsafe s' (List.mem_cons_of_mem _ hmem)
            (Bool.and_eq_true_iff.mp hgranted').1).2 _ hfound (by simpa using hin)
          exact hapart p hp.symm

/-- **Reservations never collide in a run of clear calls**, on any map that was made at
boot: each range that is granted lies in one free entry and is apart from every entry in
use, and so the ranges that are put in use are apart from one another.  A call that is
granted without being clear does collide. -/
theorem clear_reservations_apart (m : Memory) (boot : List Record) (us : List Request)
    (hfuel : pageSize ≤ fuel) :
    ∃ steps b', useAll fuel (appendAll (create m) boot).1 us = some (steps, b') ∧
      steps.map Step.request = us ∧
      ((∀ s ∈ steps, s.Clear) → (∀ s ∈ steps, s.Safe) ∧
        (steps.filter fun s => s.granted && !s.request.entry.isFree).Pairwise
          fun s s' => s.request.extent.Apart s'.request.extent) ∧
      ∀ s ∈ steps, s.granted = true → (s.Safe ↔ s.Clear) := by
  have h : Holds _ _ := appendAll_holds (create_holds m) boot
  obtain ⟨steps, b', hrun, hus, hsteps⟩ := useAll_follows h hfuel us
  refine ⟨steps, b', hrun, hus, ?_, ?_⟩
  · intro hclear
    have hsafe : ∀ s ∈ steps, s.Safe := fun s hs =>
      Step.safe_of_clear (hclear s hs) (hsteps.granted s hs)
    exact ⟨hsafe, hsteps.pairwise hsafe⟩
  · intro s hs hgranted
    exact ⟨Step.clear_of_safe hgranted, fun hclear =>
      Step.safe_of_clear hclear (hsteps.granted s hs)⟩

/-- Four megabytes of free memory. -/
def sampleMap : List Record := [.mmap 0x100000 0x400000 1]

theorem clear_reservations_apart_sample :
    pageSize ≤ 4096 ∧
    ∃ steps b', useAll 4096 (appendAll (create ⟨fun _ => 0, []⟩) sampleMap).1
        [⟨0x100000, 0x2000, 99⟩] = some (steps, b') ∧ ∀ s ∈ steps, s.Safe := by
  refine ⟨le_rfl, ?_⟩
  obtain ⟨steps, b', hrun, hus, hall, -⟩ := clear_reservations_apart ⟨fun _ => 0, []⟩ sampleMap
    [⟨0x100000, 0x2000, 99⟩] (le_refl 4096)
  have hvalue : (useAll 4096 (appendAll (create ⟨fun _ => 0, []⟩) sampleMap).1
      [⟨0x100000, 0x2000, 99⟩]).map Prod.fst
      = some [⟨[⟨0x100000, 0x400000, 1⟩], ⟨0x100000, 0x2000, 99⟩, true⟩] := by decide +kernel
  rw [hrun, Option.map_some, Option.some_inj] at hvalue
  refine ⟨steps, b', hrun, (hall ?_).1⟩
  intro s hs front e back hmap hin
  rw [show steps = _ from hvalue, List.mem_singleton] at hs
  subst hs
  have hmem : e ∈ [(⟨0x100000, 0x400000, 1⟩ : MmapEntry)] := by
    rw [show [(⟨0x100000, 0x400000, 1⟩ : MmapEntry)] = front ++ e :: back from hmap]
    exact List.mem_append_right _ List.mem_cons_self
  rw [List.mem_singleton] at hmem
  subst hmem
  exact absurd hin (by decide)

/-- Two ranges that have a page in common are both granted. -/
theorem reservations_collide :
    ∃ steps b', useAll 4096 (appendAll (create ⟨fun _ => 0, []⟩) sampleMap).1
        [⟨0x100000, 0x2000, 99⟩, ⟨0x101000, 0x2000, 99⟩] = some (steps, b') ∧
      (∀ s ∈ steps, s.granted = true) ∧ ∃ s ∈ steps, ¬ s.Safe := by
  have hvalue : (useAll 4096 (appendAll (create ⟨fun _ => 0, []⟩) sampleMap).1
      [⟨0x100000, 0x2000, 99⟩, ⟨0x101000, 0x2000, 99⟩]).map Prod.fst
      = some [⟨[⟨0x100000, 0x400000, 1⟩], ⟨0x100000, 0x2000, 99⟩, true⟩,
        ⟨[⟨0x100000, 0x400000, 1⟩, ⟨0x100000, 0x2000, 99⟩], ⟨0x101000, 0x2000, 99⟩, true⟩] := by
    decide +kernel
  obtain ⟨⟨steps, b'⟩, hrun, hsteps⟩ := Option.map_eq_some_iff.mp hvalue
  refine ⟨steps, b', hrun, ?_, ?_⟩
  · rw [show steps = _ from hsteps]
    simp
  · rw [show steps = _ from hsteps]
    refine ⟨_, List.mem_cons_of_mem _ List.mem_cons_self, fun hsafe => ?_⟩
    -- the page at 0x101000 is in both
    have hapart := (hsafe rfl).2 ⟨0x100000, 0x2000, 99⟩ (by simp) (by decide)
    exact hapart 0x101000 (by decide)

end Metta.Bootinfo
