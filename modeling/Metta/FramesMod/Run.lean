/-
  Metta.FramesMod.Run — runs of the frame allocator.

  What each operation can do, said once (`allocateRange_cases`,
  `createClient_cases`, `reserveEntry_cases`), and the runs of the allocator
  from the state that `create` leaves.  Without `free` every operation takes
  frames from one region or changes clients only (`exec_changes`), so the
  counters stay exact along every run.

    • `create_sound`   — `create` leaves exact counters,
    • `run_sound`      — every allocation keeps them,
    • `exec_givenOut`  — and gives out the frames that its answer stands for,
    • `counters_exact_along_runs` — so they are exact in every state of a
      run, and no allocation reads outside the counters of a region.
-/
import Metta.FramesMod.Take

namespace Metta.FramesMod

open Metta.Machine

/-! ## §1. Frames that a search has picked. -/

/-- The frames `g` are free in region `r` of the state, as far as the counters
say; if there are none, taking them changes no counter. -/
structure Picked (s : State) (g : Found) (r : Region) : Prop where
  region : s.regions[g.region]? = some r
  first : g.first < r.nLogicalFrames
  enough : g.nFrames ≤ r.frames g.first
  empty : g.nFrames = 0 → r.frames g.first = 0 ∨ g.first = 0

/-- Picked frames lie inside the region. -/
theorem Picked.inside {s : State} {g : Found} {r : Region} (p : Picked s g r) (S : Sound s) :
    g.first + g.nFrames ≤ r.nLogicalFrames := by
  have := (S.counts p.region g.first p.first).bound
  have := p.enough
  omega

theorem Picked.sum_lt {s : State} {g : Found} {r : Region} (p : Picked s g r) (S : Sound s) :
    g.first + g.nFrames < wordSize := by
  have := p.inside S
  have := (S.region r (List.mem_of_getElem? p.region)).nLt
  simp only [wordSize]
  omega

theorem Picked.sound {s : State} {g : Found} {r : Region} (p : Picked s g r) (S : Sound s)
    (owner : Nat) : Sound (s.taken owner g r) :=
  taken_sound S p.region p.first (p.inside S) p.empty

/-- Picked frames were free. -/
theorem Picked.not_busy {s : State} {g : Found} {r : Region} (p : Picked s g r) (S : Sound s)
    {j : Nat} (hj : g.first ≤ j) (hj' : j < g.first + g.nFrames) :
    ¬ busy s.grants g.region j := by
  have := p.enough
  exact (S.counts p.region g.first p.first).free hj (by omega)

theorem Picked.takeFrames_eq {s : State} {g : Found} {r : Region} (p : Picked s g r) (S : Sound s)
    (owner : Nat) : takeFrames owner g s = .ok (s.taken owner g r) := by
  have hin := p.inside S
  have hr := S.region r (List.mem_of_getElem? p.region)
  have hzero : sub32 frameWidth frameWidth = 0 := by decide
  have hout : ¬ r.nLogicalFrames < g.first + g.nFrames := by omega
  simp only [takeFrames, p.region, allocUpdateFreePredecessors, Region.free, if_pos p.first,
    Except.map, Except.bind, markFramesUsed, add32_eq (p.sum_lt S), Nat.add_sub_cancel_left,
    if_neg hout, State.taken, takenFrames, hr.width, hzero, shr32_frameWidth]

/-- The address of a frame of a region. -/
theorem frameAddress_mod {r : Region} (h : RegionOK r) {j : Nat} (hj : j < 2 ^ 20) :
    frameAddress r j = (r.start + j * 4096) % wordSize := by
  have hshl : shl32 j r.frameWidth = j * 4096 := by
    rw [h.width, shl32_frameWidth (by simp only [wordSize]; omega)]
  rw [frameAddress, hshl, add32]

theorem frameAddress_page {r : Region} (h : RegionOK r) {j : Nat} (hj : j < 2 ^ 20) :
    frameAddress r j % 4096 = r.start % 4096 := by
  rw [frameAddress_mod h hj]
  simp only [wordSize]
  omega

/-- A request for no frames at all gets the first frame of a page-aligned
region. -/
theorem firstFit_zero {r : Region} (h : RegionOK r) {k j : Nat} (hpage : r.start % 4096 = 0)
    (hfit : firstFit r 0 frameWidth k 0 = some j) : j = 0 := by
  cases k with
  | zero => cases hfit
  | succ k =>
      have hal : isAlignedToFrameWidth (frameAddress r 0) frameWidth = true := by
        rw [isAlignedToFrameWidth_iff (by decide)]
        exact (frameAddress_page h (by decide)).trans hpage
      rw [firstFit, if_pos (by simp [hal])] at hfit
      exact (Option.some.inj hfit).symm

/-- What `alloc_any` picks. -/
theorem allocAny_picked {s : State} (S : Sound s) {n align : Nat} {g : Found}
    (ha : frameWidth ≤ align) (ha' : align < 32) (hn0 : n = 0 → align = frameWidth)
    (h : allocAny n align s.regions 0 = .ok (some g)) :
    ∃ r, Picked s g r ∧ r.attrs = .regular ∧ g.nFrames = n ∧ r.start % 4096 = 0 := by
  obtain ⟨r, -, hget, hattrs, hn, hfit⟩ := allocAny_spec S.region h
  rw [Nat.sub_zero] at hget
  have hr := S.region r (List.mem_of_getElem? hget)
  obtain ⟨-, hlt, hle, hal⟩ := firstFit_spec hfit
  rw [Nat.zero_add] at hlt
  have hnlt := hr.nLt
  have hpage : r.start % 4096 = 0 := by
    rw [← frameAddress_page hr (show g.first < 2 ^ 20 by omega)]
    exact page_of_aligned ha ((isAlignedToFrameWidth_iff ha').mp hal)
  refine ⟨r, ⟨hget, hlt, hn ▸ hle, fun h0 => .inr ?_⟩, hattrs, hn, hpage⟩
  have hz : n = 0 := by omega
  rw [hn0 hz, hz] at hfit
  exact firstFit_zero hr hpage hfit

/-- What `alloc_range` picks. -/
theorem allocRange_picked {s : State} (S : Sound s) {n start : Nat} {g : Found}
    (hpos : 0 < n) (hn : n < wordSize) (h : allocRange n start s.regions = .ok g) :
    ∃ r, Picked s g r ∧ getRegion start s.regions 0 = some (g.region, r) ∧
      g.first = bytesToLogFrames (sub32 start r.start) r.frameWidth ∧
      g.nFrames = min n (r.frames g.first) := by
  obtain ⟨r, hget, hfirst, hlt, hmin⟩ := allocRange_spec S.region hn h
  have hreg := (getRegion_spec hget).2.1
  rw [Nat.sub_zero] at hreg
  exact ⟨r, ⟨hreg, hlt, by omega, fun h0 => .inl (by omega)⟩, hget, hfirst, hmin⟩

/-- What `allocate_range` picks: free frames of a RAM region, or those at the
page `start`, as many as there are. -/
theorem findFrames_picked {s : State} (S : Sound s) {n width start : Nat} {g : Found}
    (hpos : 0 < n) (hn : n < wordSize) (hw : frameWidth ≤ width) (hw' : width < 32)
    (h : findFrames n width start s.regions = .ok (some g)) :
    ∃ r, Picked s g r ∧
      ((unaligned start = true ∧ r.attrs = .regular ∧ g.nFrames = n ∧ r.start % 4096 = 0) ∨
        (unaligned start = false ∧ start % 4096 = 0 ∧
          getRegion start s.regions 0 = some (g.region, r) ∧
          g.first = bytesToLogFrames (sub32 start r.start) r.frameWidth ∧
          g.nFrames = min n (r.frames g.first))) := by
  unfold findFrames at h
  split at h
  next hodd =>
    obtain ⟨r, p, hattrs, hgn, hpage⟩ := allocAny_picked S hw hw' (by omega) h
    exact ⟨r, p, .inl ⟨hodd, hattrs, hgn, hpage⟩⟩
  next hodd =>
    split at h
    next => cases h
    next hal =>
      have hal' : isAlignedToFrameWidth start width = true := by simpa using hal
      cases hrange : allocRange n start s.regions with
      | error f => rw [hrange] at h; cases h
      | ok g' =>
          rw [hrange] at h
          cases h
          obtain ⟨r, p, hget, hfirst, hmin⟩ := allocRange_picked S hpos hn hrange
          refine ⟨r, p, .inr ⟨by simpa using hodd, ?_, hget, hfirst, hmin⟩⟩
          exact page_of_aligned hw ((isAlignedToFrameWidth_iff hw').mp hal')

/-! ## §2. Everything an operation can do. -/

/-- `add_range` touches the region list of the client only. -/
theorem addRange_cases {c c' : Client} {room : Bool} {start n w : Nat}
    (h : addRange c room start n w = .ok c') : c' = { c with regionList := c'.regionList } := by
  unfold addRange at h
  split at h
  next => cases h; rfl
  next =>
    split at h
    next => cases h; rfl
    next l hl =>
      dsimp only at h
      split at h
      · cases room <;> cases h
        rfl
      · split at h
        next => cases h
        next =>
          split at h
          next => cases h; rfl
          next => cases room <;> cases h; rfl

/-- Taking frames leaves the clients alone. -/
theorem takeFrames_clients {owner : Nat} {g : Found} {s s' : State}
    (h : takeFrames owner g s = .ok s') : s'.clients = s.clients := by
  unfold takeFrames at h
  split at h
  next => cases h
  next =>
    obtain ⟨r, -, hmark⟩ := bind_eq_ok.mp h
    unfold markFramesUsed at hmark
    dsimp only at hmark
    split at hmark
    next => cases hmark
    next => cases hmark; rfl

/-- **Everything `allocate_range` can do**: refuse, or take the frames it has
found and charge the client for the frames it asked for. -/
theorem allocateRange_cases {id bytes width start : Nat} {room : Bool} {s s' : State} {a : Nat}
    (hok : ∀ r ∈ s.regions, RegionOK r)
    (h : allocateRange id bytes width start room s = .ok (a, s')) :
    (a = noAddress ∧ s' = s) ∨
      ∃ c g r s₁ l, s.clients[id]? = some c ∧ 0 < bytes ∧
        add32 c.nAllocatedPhysFrames
            (shr32 (alignToFrameWidth bytes (max width frameWidth)) frameWidth)
          ≤ c.guaranteedFrames ∧
        findFrames (shr32 (alignToFrameWidth bytes (max width frameWidth)) frameWidth)
            (max width frameWidth) start s.regions = .ok (some g) ∧
        s.regions[g.region]? = some r ∧ takeFrames c.owner g s = .ok s₁ ∧
        a = frameAddress r g.first ∧
        addRange
            { c with
              nAllocatedPhysFrames := add32 c.nAllocatedPhysFrames
                (shr32 (alignToFrameWidth bytes (max width frameWidth)) frameWidth) }
            room a (shr32 (alignToFrameWidth bytes (max width frameWidth)) frameWidth)
            (max width frameWidth)
          = .ok { c with
              nAllocatedPhysFrames := add32 c.nAllocatedPhysFrames
                (shr32 (alignToFrameWidth bytes (max width frameWidth)) frameWidth)
              regionList := l } ∧
        s' = { s₁ with clients := s₁.clients.set id { c with
          nAllocatedPhysFrames := add32 c.nAllocatedPhysFrames
            (shr32 (alignToFrameWidth bytes (max width frameWidth)) frameWidth)
          regionList := l } } := by
  unfold allocateRange at h
  split at h
  next => cases h
  next c hc =>
    split at h
    next => cases h; exact .inl ⟨rfl, rfl⟩
    next hpos =>
      dsimp only at h
      set n := shr32 (alignToFrameWidth bytes (max width frameWidth)) frameWidth with hn
      split at h
      next => cases h; exact .inl ⟨rfl, rfl⟩
      next hquota =>
        obtain ⟨found, hfind, h⟩ := bind_eq_ok.mp h
        cases found with
        | none => cases h; exact .inl ⟨rfl, rfl⟩
        | some g =>
          dsimp only at h
          split at h
          next => cases h
          next r hr =>
            -- standard regions are never wider than the request
            have hwide : ¬ max width frameWidth < r.frameWidth := by
              rw [(hok r (List.mem_of_getElem? hr)).width]
              omega
            simp only [if_neg hwide] at h
            obtain ⟨s₁, htake, h⟩ := bind_eq_ok.mp h
            obtain ⟨c', hadd, h⟩ := map_eq_ok.mp h
            have hc' := addRange_cases hadd
            cases h
            refine .inr ⟨c, g, r, s₁, c'.regionList, hc, by omega, by omega, hfind, hr,
              htake, rfl, hadd.trans (congrArg _ hc'), ?_⟩
            rw [hc']

/-- **Everything `create_client` can do**: refuse before the heap is there, or
take the initial frames for a new client. -/
theorem createClient_cases {owner granted extra init head : Nat} {room room' : Bool}
    {s s' : State} {id : Option Nat}
    (h : createClient owner granted extra init head room room' s = .ok (id, s')) :
    (id = none ∧ s' = s) ∨
      ∃ system g r s₁ l, s.clients[0]? = some system ∧ system.heap = true ∧
        id = some s.clients.length ∧
        allocAny (min init granted) frameWidth s.regions 0 = .ok (some g) ∧
        s.regions[g.region]? = some r ∧ takeFrames owner g s = .ok s₁ ∧
        addRange
            { owner, nAllocatedPhysFrames := min init granted, guaranteedFrames := granted
              extraFrames := max extra granted, heap := true, regionList := some ⟨head, []⟩ }
            room' (frameAddress r g.first) (min init granted) frameWidth
          = .ok
            { owner, nAllocatedPhysFrames := min init granted, guaranteedFrames := granted
              extraFrames := max extra granted, heap := true, regionList := l } ∧
        s' = { s₁ with clients := s₁.clients.set 0 { system with
            nAllocatedPhysFrames := add32 system.nAllocatedPhysFrames (min init granted) } ++
          [{ owner, nAllocatedPhysFrames := min init granted, guaranteedFrames := granted
             extraFrames := max extra granted, heap := true, regionList := l }] } := by
  unfold createClient at h
  split at h
  next => cases h
  next system hsys =>
    split at h
    -- the client is not created, and nothing has changed
    next => cases h; exact .inl ⟨rfl, rfl⟩
    next hheap =>
      dsimp only at h
      split at h
      next => cases h
      next =>
        -- frames from any region, and their range in the list of the new client
        obtain ⟨found, hfind, h⟩ := bind_eq_ok.mp h
        cases found with
        | none => cases h
        | some g =>
          dsimp only at h
          split at h
          next => cases h
          next r hr =>
            split at h
            next => cases h
            next =>
              obtain ⟨s₁, htake, h⟩ := bind_eq_ok.mp h
              obtain ⟨c', hadd, h⟩ := map_eq_ok.mp h
              have hc' := addRange_cases hadd
              cases h
              refine .inr ⟨system, g, r, s₁, c'.regionList, hsys, by simpa using hheap, ?_, hfind,
                hr, htake, hadd.trans (congrArg _ hc'), ?_⟩
              · rw [takeFrames_clients htake]
              · rw [hc']

/-- Everything the second pass of `create` can do with an entry. -/
theorem reserveEntry_cases {e : MmapEntry} {s s' : State} (h : reserveEntry e s = .ok s') :
    ∃ system g s₁, s.clients[0]? = some system ∧
      allocRange (sizeInWholeFrames e.size frameWidth % wordSize) (e.address % wordSize)
        s.regions = .ok g ∧
      g.nFrames ≠ 0 ∧ takeFrames system.owner g s = .ok s₁ ∧
      s' = { s₁ with clients := s₁.clients.set 0 { system with
        nAllocatedPhysFrames := add32 system.nAllocatedPhysFrames g.nFrames } } := by
  unfold reserveEntry at h
  split at h
  next => cases h
  next system hsys =>
    obtain ⟨g, hrange, h⟩ := bind_eq_ok.mp h
    split at h
    next => cases h
    next hne =>
      obtain ⟨s₁, htake, h⟩ := map_eq_ok.mp h
      exact ⟨system, g, s₁, hsys, hrange, hne, htake, h.symm⟩

/-! ## §3. Calls and runs. -/

/-- The calls on the allocator; `room` says whether the heap has room. -/
inductive Call where
  | finishInit
  | createClient (owner granted extra init headStart : Nat) (stateRoom listRoom : Bool)
  | allocateRange (id bytes width start : Nat) (room : Bool)
  | free (id addr bytes : Nat)
  deriving Repr, DecidableEq

/-- `allocate` is `allocate_range` at any address. -/
def Call.allocate (id bytes width : Nat) (room : Bool) : Call :=
  .allocateRange id bytes width noAddress room

/-- The effect of a call and what it answers; the answer 0 of `create_client` is
`NULL`, as the system client has that number. -/
def exec : Call → State → Except Fault (Nat × State)
  | .finishInit, s => (finishInit s).map fun s => (0, s)
  | .createClient owner granted extra init head room room', s =>
      (createClient owner granted extra init head room room' s).map fun r =>
        (r.1.getD 0, r.2)
  | .allocateRange id bytes width start room, s => allocateRange id bytes width start room s
  | .free id addr bytes, s => (free id addr bytes s).map fun s => (0, s)

/-- A call and its answer. -/
structure Event where
  call : Call
  answer : Nat
  deriving Repr, DecidableEq

/-- The states reached by calls that have returned, each of which met `ok` in
the state before it; newest event first. -/
inductive Run (ok : State → Call → Prop) (s₀ : State) : List Event → State → Prop where
  | nil : Run ok s₀ [] s₀
  | step {evs s c a s'} : Run ok s₀ evs s → ok s c → exec c s = .ok (a, s') →
      Run ok s₀ (⟨c, a⟩ :: evs) s'

/-- Calls other than `free`, whose byte count survives the rounding up to the
frame width. -/
def Call.Allocates : Call → Prop
  | .allocateRange _ bytes width _ _ => roundUp bytes width < wordSize
  | .free .. => False
  | _ => True

/-- What an allocation does to everything but the clients: nothing, or it takes
the frames it has picked. -/
inductive Changes (s : State) : State → Prop where
  | clients (cl : List Client) : Changes s { s with clients := cl }
  | taken {g : Found} {r : Region} (owner : Nat) (cl : List Client) :
      Picked s g r → Changes s { s.taken owner g r with clients := cl }

theorem Sound.of_clients {s : State} (S : Sound s) (cl : List Client) :
    Sound { s with clients := cl } := ⟨S.region, S.counts, S.inside⟩

theorem Changes.sound {s s' : State} (h : Changes s s') (S : Sound s) : Sound s' := by
  cases h with
  | clients cl => exact S.of_clients cl
  | taken owner cl p => exact (p.sound S owner).of_clients cl

theorem Changes.sameShape {s s' : State} (h : Changes s s') : SameShape s s' := by
  cases h with
  | clients cl => exact .refl s
  | taken owner cl p => exact taken_sameShape owner p.region

/-- The physical frames of a request are a word. -/
theorem nPhysFrames_lt {bytes width : Nat} (hpos : 0 < bytes)
    (h : roundUp bytes width < wordSize) :
    shr32 (alignToFrameWidth bytes (max width frameWidth)) frameWidth < wordSize := by
  have := (nPhysFrames_eq hpos h).1
  omega

/-- **Every allocation takes the frames it has picked, or changes clients
only.** -/
theorem exec_changes {c : Call} {s s' : State} {a : Nat} (S : Sound s) (hc : c.Allocates)
    (h : exec c s = .ok (a, s')) : Changes s s' := by
  cases c with
  | finishInit =>
      obtain ⟨s₁, hfin, h⟩ := map_eq_ok.mp h
      cases h
      unfold finishInit at hfin
      split at hfin
      next => cases hfin
      next =>
        split at hfin
        next => cases hfin
        next => cases hfin; exact .clients _
  -- frames from one region are taken, or none
  | createClient owner granted extra init head room room' =>
      obtain ⟨res, hcreate, h⟩ := map_eq_ok.mp h
      cases h
      rcases createClient_cases hcreate with
        ⟨-, hs⟩ | ⟨system, g, r, s₁, l, -, -, -, hfind, -, htake, -, hs⟩
      · rw [hs]
        exact .clients s.clients
      · obtain ⟨r, p, -, -⟩ := allocAny_picked S (le_refl _) (by decide) (fun _ => rfl) hfind
        rw [p.takeFrames_eq S] at htake
        cases htake
        rw [hs]
        exact .taken owner _ p
  | allocateRange id bytes width start room =>
      rcases allocateRange_cases S.region h with
        ⟨-, hs⟩ | ⟨cl, g, r, s₁, l, -, hpos, -, hfind, -, htake, -, -, hs⟩
      · rw [hs]
        exact .clients s.clients
      · obtain ⟨hw, -⟩ := roundUp_width hpos hc
        obtain ⟨r', p, -⟩ := findFrames_picked S (nPhysFrames_eq hpos hc).2
          (nPhysFrames_lt hpos hc) (le_max_right _ _) hw hfind
        rw [p.takeFrames_eq S] at htake
        cases htake
        rw [hs]
        exact .taken cl.owner _ p
  | free id addr bytes => exact hc.elim

/-! ## §4. What has been given out. -/

/-- Frames that somebody was granted: how many were asked for, the place that was
asked for, if any, and the address that was answered, if any. -/
structure Granted where
  nFrames : Nat
  start : Option Nat
  addr : Option Nat
  deriving Repr, DecidableEq

/-- The frames from `first` on, `m` of them, are what `q` gets in region `r`, of
which the frames `given` are gone: free ones, where the address says, and all that
were asked for; at a place of the caller's choice as many as there are. -/
structure Granted.Gets (q : Granted) (r : Region) (given : Nat → Prop) (first m : Nat) :
    Prop where
  inside : first + m ≤ r.nLogicalFrames
  free : ∀ j, first ≤ j → j < first + m → ¬ given j
  answered : ∀ a, q.addr = some a → frameAddress r first = a
  placed : ∀ a, q.start = some a → frameAddress r first = a
  atMost : m ≤ q.nFrames
  whole : q.start = none → m = q.nFrames
  short : m < q.nFrames → first + m = r.nLogicalFrames ∨ given (first + m)

/-- **The frames given out** by the grants `qs`, newest first: frame `j` of region
`i` is `given i j`.  Nothing here mentions how the allocator keeps its books. -/
inductive GivenOut (regions : List Region) : List Granted → (Nat → Nat → Prop) → Prop where
  | nil {given : Nat → Nat → Prop} : (∀ i j, ¬ given i j) → GivenOut regions [] given
  | cons {q : Granted} {qs : List Granted} {given given' : Nat → Nat → Prop} {i first m : Nat}
      {r : Region} : GivenOut regions qs given → regions[i]? = some r →
      q.Gets r (given i) first m →
      (∀ i' j, given' i' j ↔ given i' j ∨ (i' = i ∧ first ≤ j ∧ j < first + m)) →
      GivenOut regions (q :: qs) given'

/-- What an event has granted: the range of an answered `allocate_range`, and the
first frames of a new client. -/
def Event.granted (ev : Event) : Option Granted :=
  match ev.call with
  | .allocateRange _ bytes width start _ =>
      if ev.answer = noAddress then none
      else some ⟨roundUp bytes width / 4096, if unaligned start then none else some start,
        some ev.answer⟩
  | .createClient _ granted _ init _ _ _ =>
      if ev.answer = 0 then none else some ⟨min init granted, none, none⟩
  | _ => none

/-- What the second pass of `create` grants to the system. -/
def reservations (map : List MmapEntry) : List Granted :=
  (map.filter fun e => e.type = .nonFree).map fun e =>
    ⟨sizeInWholeFrames e.size frameWidth % wordSize, some (e.address % wordSize), none⟩

/-- The regions of a state, without their counters. -/
def State.shapes (s : State) : List Region := s.regions.map Region.shape

/-- Picked frames that a grant gets are then given out. -/
theorem GivenOut.picked {s s' : State} {g : Found} {r : Region} {q : Granted}
    {qs : List Granted} (G : GivenOut s.shapes qs (busy s.grants)) (owner : Nat)
    (p : Picked s g r) (hq : q.Gets r (busy s.grants g.region) g.first g.nFrames)
    (hs : s'.grants = (s.taken owner g r).grants) :
    GivenOut s.shapes (q :: qs) (busy s'.grants) := by
  have hget : s.shapes[g.region]? = some r.shape := by
    rw [State.shapes, List.getElem?_map, p.region]
    rfl
  have hq' : q.Gets r.shape (busy s.grants g.region) g.first g.nFrames :=
    ⟨hq.inside, hq.free, hq.answered, hq.placed, hq.atMost, hq.whole, hq.short⟩
  refine .cons G hget hq' fun i j => ?_
  rw [hs, State.taken, busy_cons]
  exact or_congr_right (and_congr_left' eq_comm)

/-- What picked frames are for a grant that has left the place open. -/
theorem Picked.gets_anywhere {s : State} {g : Found} {r : Region} (p : Picked s g r)
    (S : Sound s) {a : Option Nat} (ha : ∀ b, a = some b → frameAddress r g.first = b) :
    Granted.Gets ⟨g.nFrames, none, a⟩ r (busy s.grants g.region) g.first g.nFrames where
  inside := p.inside S
  free _ hj hj' := p.not_busy S hj hj'
  answered := ha
  placed _ h := by cases h
  atMost := le_refl _
  whole _ := rfl
  short h := absurd h (lt_irrefl _)

/-- What picked frames are for a grant at a page `start`: as many as there are. -/
theorem Picked.gets_at {s : State} {g : Found} {r : Region} {n start : Nat}
    (p : Picked s g r) (S : Sound s) (hpage : start % 4096 = 0) (hr : r.start % 4096 = 0)
    (hget : getRegion start s.regions 0 = some (g.region, r))
    (hfirst : g.first = bytesToLogFrames (sub32 start r.start) r.frameWidth)
    (hmin : g.nFrames = min n (r.frames g.first)) :
    frameAddress r g.first = start ∧
      ∀ a, (∀ b, a = some b → start = b) →
        Granted.Gets ⟨n, some start, a⟩ r (busy s.grants g.region) g.first g.nFrames := by
  have hok := S.region r (List.mem_of_getElem? p.region)
  have hc := (getRegion_spec hget).2.2
  obtain ⟨hframe, -⟩ := hok.logFrame_eq hc hpage hr
  obtain ⟨hle, hlt⟩ := hok.of_contains hc
  have hstart : start < wordSize := lt_trans (hok.contains_iff.mp hc).2 (add32_lt _ _)
  have hlog := p.first
  have haddr : frameAddress r g.first = start := by
    rw [frameAddress_mod hok (lt_trans hlog (by have := hok.nLt; omega)), hfirst, hframe]
    rw [show r.start + (start - r.start) / 4096 * 4096 = start by omega]
    exact Nat.mod_eq_of_lt hstart
  have hrun := S.counts p.region g.first hlog
  refine ⟨haddr, fun a ha => ⟨p.inside S, fun j hj hj' => p.not_busy S hj hj',
    fun b hb => haddr.trans (ha b hb), ?_, hmin ▸ min_le_left n _, fun h => (nomatch h),
    fun h => ?_⟩⟩
  · intro b hb
    cases hb
    exact haddr
  · -- the grant is short, so it ends where the free frames do
    have hshort : g.nFrames < n := h
    have hall : g.nFrames = r.frames g.first := by omega
    rw [hall]
    rcases Nat.lt_or_ge (g.first + r.frames g.first) r.nLogicalFrames with hin | hend
    · exact .inr (hrun.stop hin)
    · have := hrun.bound
      exact .inl (by omega)

/-- **Every allocation gives out what its answer says.** -/
theorem exec_givenOut {c : Call} {s s' : State} {a : Nat} {qs : List Granted} (S : Sound s)
    (hp : ∀ r ∈ s.regions, r.start % 4096 = 0) (hc : c.Allocates)
    (h : exec c s = .ok (a, s')) (G : GivenOut s.shapes qs (busy s.grants)) :
    GivenOut s.shapes ((Event.granted ⟨c, a⟩).toList ++ qs) (busy s'.grants) := by
  cases c with
  | finishInit =>
      obtain ⟨s₁, hfin, h⟩ := map_eq_ok.mp h
      cases h
      unfold finishInit at hfin
      split at hfin
      next => cases hfin
      next =>
        split at hfin
        next => cases hfin
        next => cases hfin; exact G
  | createClient owner granted extra init head room room' =>
      obtain ⟨res, hcreate, h⟩ := map_eq_ok.mp h
      cases h
      rcases createClient_cases hcreate with
        ⟨hid, hs⟩ | ⟨system, g, r, s₁, l, hsys, -, hid, hfind, -, htake, -, hs⟩
      · rw [hid, hs]
        exact G
      · obtain ⟨r, p, -, hn, -⟩ := allocAny_picked S (le_refl _) (by decide) (fun _ => rfl) hfind
        rw [p.takeFrames_eq S] at htake
        cases htake
        have hpos : s.clients.length ≠ 0 := by
          intro h0
          rw [List.length_eq_zero_iff.mp h0] at hsys
          cases hsys
        have hgrant : Event.granted ⟨.createClient owner granted extra init head room room',
            res.1.getD 0⟩ = some ⟨min init granted, none, none⟩ := by
          rw [hid]
          exact if_neg hpos
        rw [hgrant, ← hn]
        exact G.picked owner p (p.gets_anywhere S fun b hb => by cases hb) (by rw [hs])
  | allocateRange id bytes width start room =>
      rcases allocateRange_cases S.region h with
        ⟨ha, hs⟩ | ⟨cl, g, r, s₁, l, -, hpos, -, hfind, hreg, htake, ha, -, hs⟩
      · have hgrant : Event.granted ⟨.allocateRange id bytes width start room, a⟩ = none :=
          if_pos ha
        rw [hs, hgrant]
        exact G
      · obtain ⟨hw, -⟩ := roundUp_width hpos hc
        have hframes := (nPhysFrames_eq hpos hc).1
        obtain ⟨r', p, hwhere⟩ := findFrames_picked S (nPhysFrames_eq hpos hc).2
          (nPhysFrames_lt hpos hc) (le_max_right _ _) hw hfind
        rw [p.takeFrames_eq S] at htake
        cases htake
        cases hreg.symm.trans p.region
        have hrp := hp r (List.mem_of_getElem? hreg)
        have hok := S.region r (List.mem_of_getElem? hreg)
        have hn : roundUp bytes width / 4096
            = shr32 (alignToFrameWidth bytes (max width frameWidth)) frameWidth := by omega
        -- the address is that of a page, which `NO_ADDRESS` is not
        have hne : a ≠ noAddress := by
          intro hno
          have hpg := frameAddress_page hok (lt_trans p.first (by have := hok.nLt; omega))
          rw [← ha, hno, hrp] at hpg
          exact absurd hpg (by decide)
        have hgrants : s'.grants = (s.taken cl.owner g r).grants := by rw [hs]
        have hgrant : Event.granted ⟨.allocateRange id bytes width start room, a⟩
            = some ⟨roundUp bytes width / 4096, if unaligned start then none else some start,
              some a⟩ := if_neg hne
        rw [hgrant, hn]
        rcases hwhere with ⟨hodd, -, hgn, -⟩ | ⟨heven, hpage, hget, hfirst, hmin⟩
        · rw [if_pos hodd, ← hgn]
          refine G.picked cl.owner p (p.gets_anywhere S fun b hb => ?_) hgrants
          cases hb
          exact ha.symm
        · obtain ⟨haddr, hgets⟩ := p.gets_at S hpage hrp hget hfirst hmin
          rw [if_neg (by rw [heven]; decide)]
          refine G.picked cl.owner p (hgets _ fun b hb => ?_) hgrants
          cases hb
          rw [ha, haddr]
  | free id addr bytes => exact hc.elim

/-! ## §5. The state that `create` leaves. -/

/-- The state before the second pass of `create`. -/
def freshState (map : List MmapEntry) (ramtab : Ramtab) (regionList : Option RegionList) :
    State where
  regions := (map.filter fun e => e.type ≠ .nonFree).map mkRegion
  ramtab := ramtab
  clients := [{ owner := ownerSystem, nAllocatedPhysFrames := 0
                guaranteedFrames := 0xffffffff, extraFrames := 0xffffffff, heap := false
                regionList }]
  grants := []

theorem freshState_sound (map : List MmapEntry) (ramtab : Ramtab)
    (regionList : Option RegionList) : Sound (freshState map ramtab regionList) := by
  constructor
  · intro r hr
    obtain ⟨e, -, rfl⟩ := List.mem_map.mp hr
    exact mkRegion_ok e
  · intro i r hr
    obtain ⟨e, -, rfl⟩ := List.mem_map.mp (List.mem_of_getElem? hr)
    refine (counts_all_free _).congr fun j => ?_
    simp [busy, freshState]
  · intro g r hg _
    cases hg

theorem create_eq {map : List MmapEntry} {ramtab : Ramtab} {regionList : Option RegionList}
    {s : State} (h : create map ramtab regionList = .ok s) :
    reserveEntries map (freshState map ramtab regionList) = .ok s := by
  unfold create at h
  dsimp only at h
  split at h
  next => cases h
  next => exact h

/-- A reservation of the second pass takes picked frames. -/
theorem reserveEntry_picked {e : MmapEntry} {s s' : State} (S : Sound s)
    (h : reserveEntry e s = .ok s') :
    ∃ owner g r cl, Picked s g r ∧ s' = { s.taken owner g r with clients := cl } ∧
      getRegion (e.address % wordSize) s.regions 0 = some (g.region, r) ∧
      g.first = bytesToLogFrames (sub32 (e.address % wordSize) r.start) r.frameWidth ∧
      g.nFrames = min (sizeInWholeFrames e.size frameWidth % wordSize) (r.frames g.first) := by
  obtain ⟨system, g, s₁, -, hrange, hne, htake, hs⟩ := reserveEntry_cases h
  have hn : sizeInWholeFrames e.size frameWidth % wordSize < wordSize := Nat.mod_lt _ (by decide)
  have hpos : 0 < sizeInWholeFrames e.size frameWidth % wordSize := by
    obtain ⟨r, -, -, -, hmin⟩ := allocRange_spec S.region hn hrange
    omega
  obtain ⟨r, p, hget, hfirst, hmin⟩ := allocRange_picked S hpos hn hrange
  rw [p.takeFrames_eq S] at htake
  cases htake
  exact ⟨_, g, r, _, p, hs, hget, hfirst, hmin⟩

theorem reserveEntries_sound {es : List MmapEntry} {s s' : State} (S : Sound s)
    (h : reserveEntries es s = .ok s') : Sound s' ∧ SameShape s s' := by
  induction es generalizing s with
  | nil => cases h; exact ⟨S, .refl _⟩
  | cons e es ih =>
      rw [reserveEntries] at h
      split at h
      next =>
        obtain ⟨s₁, hres, h⟩ := bind_eq_ok.mp h
        obtain ⟨owner, g, r, cl, p, rfl, -⟩ := reserveEntry_picked S hres
        have hch : Changes s { s.taken owner g r with clients := cl } := .taken owner cl p
        obtain ⟨S', hshape⟩ := ih (hch.sound S) h
        exact ⟨S', hch.sameShape.trans hshape⟩
      next => exact ih S h

/-- **`create` leaves exact counters.** -/
theorem create_sound {map : List MmapEntry} {ramtab : Ramtab} {regionList : Option RegionList}
    {s : State} (h : create map ramtab regionList = .ok s) :
    Sound s ∧ SameShape (freshState map ramtab regionList) s :=
  reserveEntries_sound (freshState_sound map ramtab regionList) (create_eq h)

/-- **Allocation keeps the counters exact along runs.** -/
theorem run_sound {s₀ s : State} {evs : List Event} (S : Sound s₀)
    (hrun : Run (fun _ c => c.Allocates) s₀ evs s) : Sound s ∧ SameShape s₀ s := by
  induction hrun with
  | nil => exact ⟨S, .refl _⟩
  | step hrun hc hexec ih =>
      have hch := exec_changes ih.1 hc hexec
      exact ⟨hch.sound ih.1, ih.2.trans hch.sameShape⟩

/-! ## §6. No counter outside a region is touched. -/

/-- The regions start at page boundaries. -/
def PageAligned (s : State) : Prop := ∀ r ∈ s.regions, r.start % 4096 = 0

theorem PageAligned.of_sameShape {s s' : State} (h : PageAligned s) (hs : SameShape s s') :
    PageAligned s' := by
  intro r' hr'
  obtain ⟨i, hi⟩ := List.mem_iff_getElem?.mp hr'
  obtain ⟨r, hr, heq⟩ := hs.get hi
  rw [← (Region.shape_eq heq).1]
  exact h r (List.mem_of_getElem? hr)

theorem freshState_pageAligned {map : List MmapEntry} (ramtab : Ramtab)
    (regionList : Option RegionList) (h : ∀ e ∈ map, e.address % 4096 = 0) :
    PageAligned (freshState map ramtab regionList) := by
  intro r hr
  obtain ⟨e, he, rfl⟩ := List.mem_map.mp hr
  have := h e (List.mem_filter.mp he).1
  simp only [mkRegion, wordSize]
  omega

theorem SameShape.shapes {s s' : State} (h : SameShape s s') : s'.shapes = s.shapes := h

/-- The second pass gives out what it reserves. -/
theorem reserveEntries_givenOut {es : List MmapEntry} {s s' : State} {qs : List Granted}
    (S : Sound s) (hp : ∀ r ∈ s.regions, r.start % 4096 = 0)
    (hes : ∀ e ∈ es, e.address % 4096 = 0) (h : reserveEntries es s = .ok s')
    (G : GivenOut s.shapes qs (busy s.grants)) :
    GivenOut s.shapes ((reservations es).reverse ++ qs) (busy s'.grants) := by
  induction es generalizing s qs with
  | nil => cases h; exact G
  | cons e es ih =>
      have hes' : ∀ e ∈ es, e.address % 4096 = 0 := fun x hx => hes x (List.mem_cons_of_mem _ hx)
      rw [reserveEntries] at h
      split at h
      next htype =>
        obtain ⟨s₁, hres, h⟩ := bind_eq_ok.mp h
        obtain ⟨owner, g, r, cl, p, rfl, hget, hfirst, hmin⟩ := reserveEntry_picked S hres
        have hch : Changes s { s.taken owner g r with clients := cl } := .taken owner cl p
        have hpage : e.address % wordSize % 4096 = 0 := by
          have := hes e List.mem_cons_self
          simp only [wordSize]
          omega
        obtain ⟨-, hgets⟩ :=
          p.gets_at S hpage (hp r (List.mem_of_getElem? p.region)) hget hfirst hmin
        have G₁ : GivenOut s.shapes (_ :: qs)
            (busy { s.taken owner g r with clients := cl }.grants) :=
          G.picked owner p (hgets none fun b hb => by cases hb) rfl
        have hshapes := hch.sameShape.shapes
        rw [← hshapes] at G₁ ⊢
        rw [reservations, List.filter_cons_of_pos (by simpa using htype), List.map_cons,
          List.reverse_cons, List.append_assoc]
        exact ih (hch.sound S) (PageAligned.of_sameShape hp hch.sameShape) hes' h G₁
      next htype =>
        rw [reservations, List.filter_cons_of_neg (by simpa using htype)]
        exact ih S hp hes' h G

/-- `create` gives out its reservations. -/
theorem create_givenOut {map : List MmapEntry} {ramtab : Ramtab}
    {regionList : Option RegionList} {s : State} (h : ∀ e ∈ map, e.address % 4096 = 0)
    (hcreate : create map ramtab regionList = .ok s) :
    GivenOut s.shapes (reservations map).reverse (busy s.grants) := by
  have hnone : GivenOut (freshState map ramtab regionList).shapes []
      (busy (freshState map ramtab regionList).grants) :=
    .nil fun i j hb => by obtain ⟨g, hg, -⟩ := hb; cases hg
  have G := reserveEntries_givenOut (freshState_sound map ramtab regionList)
    (freshState_pageAligned ramtab regionList h) h (create_eq hcreate) hnone
  rw [(create_sound hcreate).2.shapes]
  rwa [List.append_nil] at G

/-- **A run gives out what it answers.** -/
theorem run_givenOut {s₀ s : State} {evs : List Event} {qs : List Granted} (S : Sound s₀)
    (hp : PageAligned s₀) (hrun : Run (fun _ c => c.Allocates) s₀ evs s)
    (G : GivenOut s₀.shapes qs (busy s₀.grants)) :
    GivenOut s.shapes (evs.filterMap Event.granted ++ qs) (busy s.grants) := by
  induction hrun with
  | nil => exact G
  | @step evs s c a s' hrun hc hexec ih =>
      obtain ⟨S', hshape⟩ := run_sound S hrun
      have G' := exec_givenOut S' (hp.of_sameShape hshape) hc hexec ih
      rw [((exec_changes S' hc hexec).sameShape).shapes]
      rw [← List.append_assoc] at G'
      have hcons : (Event.mk c a :: evs).filterMap Event.granted
          = (Event.granted ⟨c, a⟩).toList ++ evs.filterMap Event.granted := by
        cases hg : Event.granted ⟨c, a⟩ with
        | none => rw [List.filterMap_cons_none hg]; rfl
        | some q => rw [List.filterMap_cons_some hg]; rfl
      rwa [hcons]

theorem addRange_ne_index {c : Client} {room : Bool} {start n w j : Nat} :
    addRange c room start n w ≠ .error (.index j) := by
  intro h
  unfold addRange at h
  split at h
  next => cases h
  next =>
    split at h
    next => cases h
    next l hl =>
      dsimp only at h
      split at h
      · cases room <;> cases h
      · split at h
        next => cases h
        next =>
          split at h
          next => cases h
          next => cases room <;> cases h

theorem allocAny_ne_index {n align : Nat} {rs : List Region} {k j : Nat} :
    allocAny n align rs k ≠ .error (.index j) := by
  induction rs generalizing k with
  | nil => exact fun h => by cases h
  | cons r rs ih =>
      intro h
      rw [allocAny] at h
      split at h
      next =>
        dsimp only at h
        split at h
        next => cases h
        next =>
          split at h
          next => cases h
          next => exact ih h
      next => exact ih h

/-- `alloc_range` at a page of a page-aligned region stays inside its array. -/
theorem allocRange_ne_index {s : State} (S : Sound s) (hp : PageAligned s) {n start j : Nat}
    (hpage : start % 4096 = 0) : allocRange n start s.regions ≠ .error (.index j) := by
  intro h
  unfold allocRange at h
  split at h
  next => cases h
  next i r hget =>
    obtain ⟨-, hreg, hc⟩ := getRegion_spec hget
    have hmem := List.mem_of_getElem? hreg
    obtain ⟨heq, hlt⟩ := (S.region r hmem).logFrame_eq hc hpage (hp r hmem)
    dsimp only at h
    rw [map_eq_error, Region.free, heq, if_pos hlt] at h
    cases h

/-- **Allocation stays inside the arrays**: with page-aligned regions no
allocation reads or writes a counter that its region does not have. -/
theorem exec_ne_index {c : Call} {s : State} (S : Sound s) (hp : PageAligned s)
    (hc : c.Allocates) (j : Nat) : exec c s ≠ .error (.index j) := by
  intro h
  cases c with
  | finishInit =>
      rw [exec, map_eq_error] at h
      unfold finishInit at h
      split at h
      next => cases h
      next => split at h <;> cases h
  | createClient owner granted extra init head room room' =>
      rw [exec, map_eq_error] at h
      unfold createClient at h
      split at h
      next => cases h
      next =>
        split at h
        next => cases h
        next =>
          dsimp only at h
          split at h
          next => cases h
          next =>
            rcases bind_eq_error.mp h with h | ⟨found, hfind, h⟩
            · exact allocAny_ne_index h
            · cases found with
              | none => cases h
              | some g =>
                -- the region that was found is there, so both accesses to it succeed
                obtain ⟨r, p, -⟩ :=
                  allocAny_picked S (le_refl _) (by decide) (fun _ => rfl) hfind
                simp only [p.region, p.takeFrames_eq S] at h
                split at h
                next => cases h
                next =>
                  simp only [Except.bind] at h
                  exact addRange_ne_index (map_eq_error.mp h)
  | allocateRange id bytes width start room =>
      rw [exec] at h
      unfold allocateRange at h
      split at h
      next => cases h
      next =>
        split at h
        next => cases h
        next hpos =>
          dsimp only at h
          split at h
          next => cases h
          next =>
            have hpos' : 0 < bytes := by omega
            obtain ⟨hw, -⟩ := roundUp_width hpos' hc
            rcases bind_eq_error.mp h with h | ⟨found, hfind, h⟩
            · -- the start is on a page, so the range that is asked for begins at a frame
              unfold findFrames at h
              split at h
              next => exact allocAny_ne_index h
              next =>
                split at h
                next => cases h
                next hal =>
                  have hpage : start % 4096 = 0 :=
                    page_of_aligned (le_max_right width frameWidth)
                      ((isAlignedToFrameWidth_iff hw).mp (by simpa using hal))
                  exact allocRange_ne_index S hp hpage (map_eq_error.mp h)
            · cases found with
              | none => cases h
              | some g =>
                obtain ⟨r, p, -⟩ := findFrames_picked S (nPhysFrames_eq hpos' hc).2
                  (nPhysFrames_lt hpos' hc) (le_max_right _ _) hw hfind
                simp only [p.region, p.takeFrames_eq S, Except.bind] at h
                exact addRange_ne_index (map_eq_error.mp h)
  | free id addr bytes => exact hc.elim

/-- `create` stays inside the arrays too. -/
theorem create_ne_index {map : List MmapEntry} (ramtab : Ramtab)
    (regionList : Option RegionList) (h : ∀ e ∈ map, e.address % 4096 = 0) (j : Nat) :
    create map ramtab regionList ≠ .error (.index j) := by
  -- no entry makes the index of a log run out, by induction on the entries
  have hgo : ∀ (es : List MmapEntry) (s : State), Sound s → PageAligned s →
      (∀ e ∈ es, e.address % 4096 = 0) → reserveEntries es s ≠ .error (.index j) := by
    intro es
    induction es with
    | nil => exact fun s _ _ _ hh => by cases hh
    | cons e es ih =>
        intro s S hp hes hh
        have hes' : ∀ e ∈ es, e.address % 4096 = 0 := fun x hx => hes x (List.mem_cons_of_mem _ hx)
        rw [reserveEntries] at hh
        split at hh
        -- an entry that is not free: its range, and then the frames
        next =>
          rcases bind_eq_error.mp hh with hh | ⟨s₁, hres, hh⟩
          · unfold reserveEntry at hh
            split at hh
            next => cases hh
            next =>
              rcases bind_eq_error.mp hh with hh | ⟨g, hrange, hh⟩
              · have hpage : e.address % wordSize % 4096 = 0 := by
                  have := hes e List.mem_cons_self
                  simp only [wordSize]
                  omega
                exact allocRange_ne_index S hp hpage hh
              · split at hh
                next => cases hh
                next hne =>
                  have hn : sizeInWholeFrames e.size frameWidth % wordSize < wordSize :=
                    Nat.mod_lt _ (by decide)
                  have hpos : 0 < sizeInWholeFrames e.size frameWidth % wordSize := by
                    obtain ⟨r, -, -, -, hmin⟩ := allocRange_spec S.region hn hrange
                    omega
                  obtain ⟨r, p, -⟩ := allocRange_picked S hpos hn hrange
                  rw [p.takeFrames_eq S] at hh
                  cases hh
          · obtain ⟨owner, g, r, cl, p, rfl, -⟩ := reserveEntry_picked S hres
            have hch : Changes s { s.taken owner g r with clients := cl } := .taken owner cl p
            exact ih _ (hch.sound S) (hp.of_sameShape hch.sameShape) hes' hh
        -- and a free one does nothing
        next => exact ih s S hp hes' hh
  intro hh
  unfold create at hh
  dsimp only at hh
  split at hh
  next => cases hh
  next =>
    exact hgo map _ (freshState_sound map ramtab regionList)
      (freshState_pageAligned ramtab regionList h) h hh

/-- **The counters are exact along every run**: after any sequence of
allocations on a page-aligned memory map, `frames[j].free` of every region is
the length of the longest run of frames from `j` on that were not given out,
and zero exactly at the frames that were: those `create` has reserved and those
of every address the run has answered.  And the next allocation stays inside the
arrays. -/
theorem counters_exact_along_runs {map : List MmapEntry} {ramtab : Ramtab}
    {regionList : Option RegionList} {s₀ s : State} {evs : List Event}
    (haligned : ∀ e ∈ map, e.address % 4096 = 0)
    (hcreate : create map ramtab regionList = .ok s₀)
    (hrun : Run (fun _ c => c.Allocates) s₀ evs s) :
    (∃ given,
      GivenOut s.shapes (evs.filterMap Event.granted ++ (reservations map).reverse) given ∧
      ∀ i r, s.regions[i]? = some r → ∀ j, j < r.nLogicalFrames →
        FreeRun (given i) r.nLogicalFrames j (r.frames j) ∧ (r.frames j = 0 ↔ given i j)) ∧
      ∀ c, c.Allocates → ∀ j, exec c s ≠ .error (.index j) := by
  obtain ⟨S₀, hshape₀⟩ := create_sound hcreate
  obtain ⟨S, hshape⟩ := run_sound S₀ hrun
  have hp : PageAligned s :=
    ((freshState_pageAligned ramtab regionList haligned).of_sameShape hshape₀).of_sameShape hshape
  have G := run_givenOut S₀
    ((freshState_pageAligned ramtab regionList haligned).of_sameShape hshape₀) hrun
    (create_givenOut haligned hcreate)
  exact ⟨⟨busy s.grants, G,
    fun i r hr j hj => ⟨S.counts hr j hj, (S.counts hr).eq_zero_iff hj⟩⟩,
    fun c hc j => exec_ne_index S hp hc j⟩

/-- Eight frames of RAM, of which the third is in use. -/
def smallMap : List MmapEntry := [⟨0, 0x8000, .free⟩, ⟨0x2000, 0x1000, .nonFree⟩]

/-- A ramtab of `n` entries that nobody has used. -/
def emptyRamtab (n : Nat) : Ramtab := ⟨n, fun _ => ⟨ownerNone, 0, .unused⟩⟩

/-- The state `create` makes of a map, if it returns. -/
def created (map : List MmapEntry) (ramtab : Ramtab) : State :=
  match create map ramtab none with
  | .ok s => s
  | .error _ => freshState map ramtab none

/-- The state after a call, if it returns. -/
def State.after (s : State) (c : Call) : State :=
  match exec c s with
  | .ok r => r.2
  | .error _ => s

theorem create_created {map : List MmapEntry} {ramtab : Ramtab}
    (h : (create map ramtab none).toOption.isSome = true) :
    create map ramtab none = .ok (created map ramtab) := by
  unfold created
  cases hc : create map ramtab none with
  | error f => rw [hc] at h; cases h
  | ok s => rfl

theorem exec_after {c : Call} {s : State} {a : Nat}
    (h : (exec c s).toOption.map Prod.fst = some a) : exec c s = .ok (a, s.after c) := by
  unfold State.after
  cases hc : exec c s with
  | error f => rw [hc] at h; cases h
  | ok r =>
      rw [hc] at h
      cases h
      rfl

/-- Two frames at any address, then two at `0x7000`, of which only one is there. -/
theorem counters_exact_small_run :
    ∃ s given, Run (fun _ c => c.Allocates) (created smallMap (emptyRamtab 8))
        [⟨.allocateRange 0 0x2000 12 0x7000 true, 0x7000⟩,
          ⟨.allocate 0 0x1800 12 true, 0⟩] s ∧
      GivenOut s.shapes
        [⟨2, some 0x7000, some 0x7000⟩, ⟨2, none, some 0⟩, ⟨1, some 0x2000, none⟩] given ∧
      ∀ i r, s.regions[i]? = some r → ∀ j, j < r.nLogicalFrames →
        FreeRun (given i) r.nLogicalFrames j (r.frames j) ∧ (r.frames j = 0 ↔ given i j) := by
  have hcreate := create_created (show
    (create smallMap (emptyRamtab 8) none).toOption.isSome = true by decide +kernel)
  have hrun : Run (fun _ c => c.Allocates) (created smallMap (emptyRamtab 8))
      [⟨.allocateRange 0 0x2000 12 0x7000 true, 0x7000⟩, ⟨.allocate 0 0x1800 12 true, 0⟩]
      (((created smallMap (emptyRamtab 8)).after (.allocate 0 0x1800 12 true)).after
        (.allocateRange 0 0x2000 12 0x7000 true)) := by
    refine .step (.step .nil ?_ (exec_after (by decide +kernel))) ?_
      (exec_after (by decide +kernel))
    · show roundUp 0x1800 12 < wordSize
      decide
    · show roundUp 0x2000 12 < wordSize
      decide
  have haligned : ∀ e ∈ smallMap, e.address % 4096 = 0 := by decide
  obtain ⟨given, G, hcounts⟩ := (counters_exact_along_runs haligned hcreate hrun).1
  have hgranted : [(⟨.allocateRange 0 0x2000 12 0x7000 true, 0x7000⟩ : Event),
        ⟨.allocate 0 0x1800 12 true, 0⟩].filterMap Event.granted
      ++ (reservations smallMap).reverse
      = [⟨2, some 0x7000, some 0x7000⟩, ⟨2, none, some 0⟩, ⟨1, some 0x2000, none⟩] := by decide
  rw [hgranted] at G
  exact ⟨_, given, hrun, G, hcounts⟩

end Metta.FramesMod
