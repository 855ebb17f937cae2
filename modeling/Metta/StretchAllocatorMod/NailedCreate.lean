/-
  Metta.StretchAllocatorMod.NailedCreate — creating a stretch with its frames.

  `stretch_allocator_v1_nailed_create` takes frames, a range of pages and a
  record, one after the other.  The frames go back when one of the others is
  not to be had; for the pages there is no call that gives them back.

  The frame allocator and the MMU are those that the closures of the server
  state lead to: any with these operations.

    • `FrameAllocator.Undoes` — `free` takes back what `allocate` did,
    • `nailedCreate` — the code,
    • `nailed_create_no_trace_iff` — when a call that failed leaves no trace.
-/
import Metta.StretchAllocatorMod.Exhaustion
import Metta.StretchAllocatorMod.Sids

namespace Metta.StretchAllocatorMod

open Metta.Machine Links
open Metta.FramesMod (frameWidth noAddress unaligned shr32 alignToFrameWidth)
open Metta.MmuMod (Pdid)

/-! ## §1. The other allocators. -/

/-- `frame_allocator_v1`, as far as it is called. -/
structure FrameAllocator (F : Type) where
  allocate : Nat → Nat → F → Nat × F
  free : Nat → Nat → F → F

/-- A call that failed has changed nothing, and `free` undoes one that did not. -/
structure FrameAllocator.Undoes {F : Type} (a : FrameAllocator F) : Prop where
  failed : ∀ bytes width s, (a.allocate bytes width s).1 = noAddress →
    (a.allocate bytes width s).2 = s
  undone : ∀ bytes width s, (a.allocate bytes width s).1 ≠ noAddress →
    a.free (a.allocate bytes width s).1 bytes (a.allocate bytes width s).2 = s

/-- `memory_v1::physmem_desc`. -/
structure PhysmemDesc where
  startAddr : Nat
  nFrames : Nat
  frameWidth : Nat
  deriving DecidableEq, Repr

/-- `mmu_v1`, as far as it is called; `rights` are sets of rights. -/
structure Mmu (M : Type) where
  addMappedRange : Stretch → Range → PhysmemDesc → BitVec 32 → M → M
  setRights : Pdid → Stretch → BitVec 32 → M → M

/-- `NULL_PDID`. -/
def nullPdid : Pdid := BitVec.allOnes 32

/-- `size_in_whole_frames`. -/
def sizeInWholeFrames (size width : Nat) : Nat := shr32 (sub32 (add32 size (2 ^ width)) 1) width

/-! ## §2. `nailed_create`. -/

/-- The state of a client, with what its server state leads to. -/
structure NailedState (F M : Type) where
  server : ServerState
  sids : SidTables
  frames : F
  mmu : M
  pdid : Pdid
  parent : Pdid
  stretches : List Nat

/-- Why `nailed_create` does not return. -/
inductive NailedFault where
  | regions (f : Fault)
  | sids (f : SidFault)
  | noLink
  deriving DecidableEq, Repr

section Create

variable {F M : Type} (a : FrameAllocator F) (u : Mmu M)

/-- `set_default_rights`: read, write and meta for the domain, meta for its parent. -/
def setDefaultRights (pdid parent : Pdid) (stretch : Stretch) (mmu : M) : M :=
  if pdid ≠ nullPdid then
    let mmu := u.setRights pdid stretch 0b1011 mmu
    if parent ≠ nullPdid then u.setRights parent stretch 0b1000 mmu else mmu
  else mmu

/-- `stretch_allocator_v1_nailed_create`.  `newStretch` and `newLink` are what the heap answers
for the stretch and for the link in the client's list. -/
def nailedCreate (fuel : Nat) (s : NailedState F M) (size : Nat) (globalRights : BitVec 32)
    (newStretch newLink : Option Nat) : Except NailedFault (Option Nat × NailedState F M) :=
  let (startAddr, frames) := a.allocate size frameWidth s.frames
  let s := { s with frames := frames }
  if startAddr = noAddress then .ok (none, s)
  else
    let phys : PhysmemDesc := ⟨startAddr, sizeInWholeFrames size frameWidth, frameWidth⟩
    match vmAlloc fuel s.server size anyAddress none with
    | .error f => .error (.regions f)
    | .ok (none, server) =>
        .ok (none, { s with server := server, frames := a.free phys.startAddr size s.frames })
    | .ok (some virt, server) =>
        let s := { s with server := server }
        match createStretch s.sids virt.virtAddr virt.nPages newStretch with
        | .error f => .error (.sids f)
        | .ok (none, sids) =>
            .ok (none, { s with sids := sids, frames := a.free phys.startAddr size s.frames })
        | .ok (some stretch, sids) =>
            let mmu := u.addMappedRange stretch virt phys globalRights s.mmu
            let mmu := setDefaultRights u s.pdid s.parent stretch mmu
            match newLink with
            | none => .error .noLink
            | some _ =>
                .ok (some stretch.self,
                  { s with sids := sids, mmu := mmu, stretches := s.stretches ++ [stretch.self] })

/-- Frames, free regions, ids and page tables are as before. -/
structure NoTrace (s s' : NailedState F M) : Prop where
  frames : s'.frames = s.frames
  regions : s'.server = s.server
  sids : s'.sids = s.sids
  mmu : s'.mmu = s.mmu

end Create

/-! ## §3. Taking pages. -/

section Regions

variable {s s' : ServerState} {xs ys zs : List Nat} {size r : Nat}

/-- Pages that were taken out of a region are missing. -/
theorem takeFromStart_ne (I : Shape s (ys ++ r :: zs)) (hpos : 0 < pageUp size)
    (hfits : pageUp size ≤ (s.desc r).nPages) : takeFromStart s r r size (pageUp size) ≠ s := by
  obtain ⟨-, -, hpages, hle⟩ := I.fine r (by simp)
  rw [takeFromStart]
  split_ifs with hmore
  · -- the region has fewer pages
    intro h
    have hdesc := congrArg (fun s => (s.desc r).nPages) h
    have hword : (s.desc r).nPages < wordSize :=
      lt_of_le_of_lt (le_trans (Nat.le_add_left _ _) hle) (by decide)
    simp only [ServerState.setDesc, Function.update_self, sub32_eq hfits hword] at hdesc
    omega
  · -- the link before it leads elsewhere
    intro h
    have hlinks := congrArg ServerState.links h
    have hnext := I.regions.ring.next_elem
    have hne : (s.links r).next ≠ r := by
      intro hself
      rw [Links.next, if_pos hself] at hnext
      cases hnext
    have hback := I.regions.ring.next_prev (x := r) (by simp)
    have hlink := remove_next s.links hne (s.links r).prev
    rw [if_pos rfl] at hlink
    have hlinks : s.links.remove r = s.links := hlinks
    rw [hlinks, hback] at hlink
    exact hne hlink.symm

/-- Taking no pages changes nothing. -/
theorem takeFromStart_eq (I : Shape s (ys ++ r :: zs)) (hzero : pageUp size = 0) :
    takeFromStart s r r size (pageUp size) = s := by
  obtain ⟨halign, hwidth, hpages, hle⟩ := I.fine r (by simp)
  have hword : (s.desc r).nPages < wordSize :=
    lt_of_le_of_lt (le_trans (Nat.le_add_left _ _) hle) (by decide)
  have hstart : (s.desc r).startAddr < wordSize := by
    simp only [allPages, pageSize, wordSize] at *
    omega
  have hsame : ({ s.desc r with
      startAddr := add32 (s.desc r).startAddr (alignToFrameWidth size (s.desc r).pageWidth)
      nPages := sub32 (s.desc r).nPages (pageUp size) } : VirtmemDesc) = s.desc r := by
    rw [hwidth, alignToFrameWidth_pages, hzero, Nat.zero_mul, add32_eq (by simpa using hstart),
      sub32_eq (Nat.zero_le _) hword]
    cases hd : s.desc r with
    | mk start n w attr =>
        rw [hd] at hwidth
        simp only at hwidth
        simp [hwidth]
  rw [takeFromStart, hzero, if_pos hpages]
  rw [hzero] at hsame
  rw [hsame, ServerState.setDesc, Function.update_eq_self]

/-- A call that is refused leaves the list. -/
theorem vmAlloc_none {fuel start : Nat} {new : Option Nat} (I : Shape s xs)
    (h : vmAlloc fuel s size start new = .ok (none, s')) : s' = s := by
  rcases vmAlloc_cases I.regions h with ⟨-, hsame⟩ | ⟨ys, r, zs, -, hcase⟩
  · exact hsame
  rcases hcase with ⟨-, -, hrange, -⟩ | ⟨-, -, -, hrange, -⟩
  · cases hrange
  · cases hrange

/-- A grant of any pages changes the list, unless it is of no pages. -/
theorem vmAlloc_some_eq_iff {fuel start : Nat} {new : Option Nat} {range : Range} (I : Shape s xs)
    (hany : unaligned start = true)
    (h : vmAlloc fuel s size start new = .ok (some range, s')) : s' = s ↔ pageUp size = 0 := by
  rcases vmAlloc_cases I.regions h with ⟨hnone, -⟩ | ⟨ys, r, zs, rfl, hcase⟩
  · cases hnone
  rcases hcase with ⟨-, hfits, -, rfl⟩ | ⟨hfixed, -⟩
  · constructor
    · intro hsame
      by_contra hpos
      exact takeFromStart_ne I (Nat.pos_of_ne_zero hpos) hfits hsame
    · exact takeFromStart_eq I
  · rw [hany] at hfixed
    cases hfixed

/-- A call that is refused has seen no region that is large enough. -/
theorem vmAlloc_none_fits {fuel start : Nat} {new : Option Nat} (I : Shape s xs)
    (hany : unaligned start = true)
    (h : vmAlloc fuel s size start new = .ok (none, s')) :
    ∀ x ∈ xs, (s.desc x).nPages < pageUp size := by
  rw [vmAlloc, if_pos hany] at h
  obtain ⟨region, hfind, h⟩ := bind_eq_ok.mp h
  have hhead : region = s.regions := by
    by_contra hhead
    obtain ⟨ys, zs, rfl, -⟩ := findRegion_from_head I.regions hfind hhead
    rw [I.regions.base region (by simp)] at h
    simp only [if_neg hhead] at h
    cases h
  subst hhead
  rw [I.regions.ring.next_head] at hfind
  cases xs with
  | nil => simp
  | cons x xs =>
      have R : Regions s ([] ++ x :: xs) := I.regions
      intro y hy
      have hno := findRegion_head R hfind y hy
      simpa using hno

end Regions

/-! ## §4. Calls that failed. -/

section Failed

variable {F M : Type} {a : FrameAllocator F} {u : Mmu M} {s s' : NailedState F M}

/-- No free region has the pages. -/
def NoRegion (s : ServerState) (size : Nat) : Prop :=
  ∀ xs, Regions s xs → ∀ x ∈ xs, (s.desc x).nPages < pageUp size

/-- **A call that failed leaves no trace** if and only if the heap had a record, or there were no
frames or no region to be had before, or the request was of no pages. -/
theorem nailed_create_no_trace_iff {nailed : Bool} {fuel size : Nat} {globalRights : BitVec 32}
    {newStretch newLink : Option Nat} (ha : a.Undoes) (hreach : Reachable nailed s.server)
    (h : nailedCreate a u fuel s size globalRights newStretch newLink = .ok (none, s')) :
    NoTrace s s' ↔ newStretch ≠ none ∨ (a.allocate size frameWidth s.frames).1 = noAddress ∨
      NoRegion s.server size ∨ pageUp size = 0 := by
  obtain ⟨xs, I, -⟩ := hreach.shape
  rw [nailedCreate] at h
  dsimp only at h
  split_ifs at h with hframes
  · cases h
    refine ⟨fun _ => .inr (.inl hframes), fun _ => ⟨?_, rfl, rfl, rfl⟩⟩
    exact ha.failed size frameWidth s.frames hframes
  · have hundone := ha.undone size frameWidth s.frames hframes
    split at h
    · cases h
    · next server hvm =>
        cases h
        refine ⟨fun _ => .inr (.inr (.inl ?_)), fun _ => ⟨hundone, vmAlloc_none I hvm, rfl, rfl⟩⟩
        intro ys R
        rw [← I.regions.ring.unique R.ring]
        exact vmAlloc_none_fits I (by decide) hvm
    · next virt server hvm =>
        cases newStretch with
        | none =>
            simp only [createStretch] at h
            cases h
            have hsame := vmAlloc_some_eq_iff I (by decide) hvm
            obtain ⟨x, hx, -, hfits⟩ := vmAlloc_range I (by decide) hvm
            constructor
            · intro hno
              exact .inr (.inr (.inr (hsame.mp hno.regions)))
            · rintro (hnew | hno | hno | hzero)
              · exact absurd rfl hnew
              · exact absurd hno hframes
              · exact absurd (hno xs I.regions x hx) (not_lt.mpr hfits)
              · exact ⟨hundone, hsame.mpr hzero, rfl, rfl⟩
        | some self =>
            -- with a record the call does not fail
            rw [createStretch] at h
            dsimp only at h
            cases hregister : registerSid (allocSid s.sids).2 (allocSid s.sids).1 self with
            | error f =>
                rw [hregister] at h
                cases h
            | ok t =>
                rw [hregister] at h
                cases newLink with
                | none => cases h
                | some link => cases h

end Failed

/-! ## §5. Calls. -/

/-- A frame allocator that gives out one frame, and has a list of what it has given out. -/
def oneFrame : FrameAllocator (List Nat) where
  allocate bytes _ s := if bytes = 0 then (noAddress, s) else (0x200000, 0x200000 :: s)
  free addr _ s := s.erase addr

theorem oneFrame_undoes : oneFrame.Undoes where
  failed bytes width s h := by
    by_cases hbytes : bytes = 0
    · simp [oneFrame, hbytes]
    · simp [oneFrame, hbytes, noAddress] at h
  undone bytes width s h := by
    by_cases hbytes : bytes = 0
    · simp [oneFrame, hbytes] at h
    · simp [oneFrame, hbytes]

/-- An MMU that counts its calls. -/
def countingMmu : Mmu Nat := ⟨fun _ _ _ _ n => n + 1, fun _ _ _ n => n + 1⟩

/-- A client with a nailed allocator over the first 256 MiB. -/
def nailedState : NailedState (List Nat) Nat :=
  ⟨createNailed noLinks 2 3 ⟨0, 0x10000, 12⟩, .cleared, [], 0, nullPdid, nullPdid, []⟩

theorem nailedState_reachable : Reachable true nailedState.server := by
  have hcall : (vmAlloc 2 (create noLinks 0 1) sysallocVaSize anyAddress none).map Prod.fst
      = .ok (some ⟨0, 0x10000, 12⟩) := by decide +kernel
  obtain ⟨⟨answer, s⟩, hcall, rfl⟩ := map_eq_ok.mp hcall
  have hnone : Fresh (create noLinks 0 1) none := fun a ha => nomatch ha
  exact .createNailed (by decide) (.create (by decide)) hnone hcall

/-- The pages of the system, behind those of the nailed allocator. -/
def systemState : NailedState (List Nat) Nat :=
  { nailedState with server := takeFromStart (create noLinks 0 1) 1 1 sysallocVaSize 0x10000 }

theorem systemState_reachable : Reachable false systemState.server := by
  have hcall : vmAlloc 2 (create noLinks 0 1) sysallocVaSize anyAddress none
      = .ok (some ⟨0, 0x10000, 12⟩, systemState.server) := rfl
  have hnone : Fresh (create noLinks 0 1) none := fun a ha => nomatch ha
  exact .call (.create (by decide)) (by decide) (by decide) hnone hcall

/-- A request of one page more than there are: the frames that were taken are back. -/
theorem nailed_create_no_trace_refused : ∃ s',
    nailedCreate oneFrame countingMmu 3 systemState 0xf0001000 0 none none = .ok (none, s') ∧
      (oneFrame.allocate 0xf0001000 frameWidth systemState.frames).1 ≠ noAddress ∧
      NoTrace systemState s' := by
  have hcall : (nailedCreate oneFrame countingMmu 3 systemState 0xf0001000 0 none none).map Prod.fst
      = .ok none := by decide +kernel
  obtain ⟨⟨answer, s'⟩, hcall, rfl⟩ := map_eq_ok.mp hcall
  have hvm : (vmAlloc 3 systemState.server 0xf0001000 anyAddress none).map Prod.fst = .ok none := by
    decide +kernel
  obtain ⟨⟨range, server⟩, hvm, rfl⟩ := map_eq_ok.mp hvm
  -- no region was large enough
  have hregion : NoRegion systemState.server 0xf0001000 := by
    intro ys R
    obtain ⟨xs, I, -⟩ := systemState_reachable.shape
    rw [← I.regions.ring.unique R.ring]
    exact vmAlloc_none_fits I (by decide) hvm
  refine ⟨s', hcall, by decide, ?_⟩
  exact (nailed_create_no_trace_iff oneFrame_undoes systemState_reachable hcall).mpr
    (.inr (.inr (.inl hregion)))

/-- **Without a record** the pages are gone. -/
theorem nailed_create_loses_pages : oneFrame.Undoes ∧ Reachable true nailedState.server ∧
    ∃ s', nailedCreate oneFrame countingMmu 2 nailedState 4096 0 none none = .ok (none, s') ∧
      ¬ NoTrace nailedState s' := by
  refine ⟨oneFrame_undoes, nailedState_reachable, ?_⟩
  have hcall : (nailedCreate oneFrame countingMmu 2 nailedState 4096 0 none none).map
      (fun p => (p.1, (p.2.server.desc 3).nPages)) = .ok (none, 0xffff) := by decide +kernel
  obtain ⟨⟨answer, s'⟩, hcall, hs⟩ := map_eq_ok.mp hcall
  simp only [Prod.mk.injEq] at hs
  obtain ⟨rfl, hpages⟩ := hs
  refine ⟨s', hcall, ?_⟩
  intro hno
  rw [hno.regions] at hpages
  exact absurd hpages (by decide)

end Metta.StretchAllocatorMod
