/-
  Metta.FramesMod.RegionList — what `add_range` records for a client.

  Every client keeps a list of the ranges it was given.  `add_range` looks for
  an element that ends before the new range and whose successor starts after
  it; if it finds one it gives up (`PANIC("Unimplemented!")`), otherwise it
  puts the range in front.  The last element's successor is the list head,
  whose `start` member nothing sets; when the new range happens to end there it
  is merged into the first element, wherever that starts.

    • `addRange_fits`        — what is recorded when neither of these happens,
    • `ClientInv.step`       — one call keeps a client's records right,
    • `records_along_runs`   — so do all calls of a run.
-/
import Metta.Machine.Cover
import Metta.FramesMod.Ranges

namespace Metta.FramesMod

open Metta.Machine

/-! ## §1. `add_range`. -/

/-- A range from `start` to `end_` can be recorded: no element lies before it
with its successor after it; a range that ends at the `start` member of the head
ends at the first element, too; and a new element has room. -/
def RegionList.Fits (l : RegionList) (room : Bool) (start end_ : Nat) : Prop :=
  match l.elements with
  | [] => room = true
  | e :: es =>
    (findPlace l.headStart start end_ (e :: es) 0).1 = false ∧
      if end_ = l.headStart then e.start = end_ else room = true

/-- After the last element the loop has looked at the list head. -/
theorem findPlace_head {headStart start end_ : Nat} {e : RangeElement} {es : List RangeElement}
    {next : Nat} (h : (findPlace headStart start end_ (e :: es) next).1 = false) :
    findPlace headStart start end_ (e :: es) next = (false, headStart) := by
  induction es generalizing e next with
  | nil =>
      simp only [findPlace] at h ⊢
      split at h
      next => cases h
      next hno => rw [if_neg hno]
  | cons e' es ih =>
      rw [findPlace] at h ⊢
      split at h
      next => cases h
      next hno =>
        rw [if_neg hno]
        exact ih h

/-- **A range that fits is recorded**: in front, or as part of the first
element, which it ends at. -/
theorem addRange_fits {c : Client} {l : RegionList} {room : Bool} {start n w : Nat}
    (hheap : c.heap = true) (hl : c.regionList = some l) (hn : 0 < n)
    (hfits : l.Fits room start (add32 start (shl32 n frameWidth))) :
    ∃ es', addRange c room start n w
        = .ok { c with regionList := some { l with elements := es' } } ∧
      (es' = ⟨start, n, w⟩ :: l.elements ∨
        ∃ e es, l.elements = e :: es ∧ e.start = add32 start (shl32 n frameWidth) ∧
          es' = { e with start, nPhysFrames := add32 e.nPhysFrames n } :: es) := by
  have hnone : ¬ (!c.heap || n = 0) = true := by
    simp [hheap]
    omega
  obtain ⟨headStart, elements⟩ := l
  unfold addRange
  rw [if_neg hnone, hl]
  cases elements with
  | nil =>
      have hroom : room = true := hfits
      subst hroom
      exact ⟨_, rfl, .inl rfl⟩
  | cons e es =>
      obtain ⟨hplace, hend⟩ := hfits
      dsimp only at hplace hend ⊢
      rw [findPlace_head hplace]
      dsimp only
      split at hend
      next heq =>
        rw [if_pos heq]
        exact ⟨_, rfl, .inr ⟨e, es, rfl, hend, rfl⟩⟩
      next hne =>
        subst hend
        rw [if_neg hne]
        exact ⟨_, rfl, .inl rfl⟩

/-! ## §2. The records of a client. -/

/-- The bytes of an element. -/
def RangeElement.extent (e : RangeElement) : Extent := ⟨e.start, e.nPhysFrames * 4096⟩

/-- The bytes of a grant. -/
def Grant.extent (regions : List Region) (g : Grant) : Extent :=
  ⟨(regions[g.region]?.elim 0 Region.start) + g.first * 4096, g.nFrames * 4096⟩

/-- **A region list records the grants `gs`**: its elements are disjoint and
cover exactly their bytes. -/
structure Records (s : State) (l : RegionList) (gs : List Grant) : Prop where
  apart : l.elements.Pairwise fun e e' => e.extent.Apart e'.extent
  covers : ∀ p, (∃ e ∈ l.elements, e.extent.Has p) ↔ ∃ g ∈ gs, (g.extent s.regions).Has p

/-- What is kept of a region list: it has each byte as often as the grants have,
which is once at most. -/
structure Recording (s : State) (id : Nat) (gs : List Grant) (l : RegionList) : Prop where
  below : ∀ e ∈ l.elements, e.start + e.nPhysFrames * 4096 < wordSize
  same : ∀ p, cover (l.elements.map RangeElement.extent) p
    = cover (gs.map (Grant.extent s.regions)) p
  once : ∀ p, cover (gs.map (Grant.extent s.regions)) p ≤ 1
  backed : ∀ g ∈ gs, g.nFrames = 0 ∨ ∃ ρ r, ρ.id = id ∧ Backs s ρ g r

theorem Recording.records {s : State} {id : Nat} {gs : List Grant} {l : RegionList}
    (R : Recording s id gs l) : Records s l gs := by
  constructor
  case apart =>
    have hle : ∀ p, cover (l.elements.map RangeElement.extent) p ≤ 1 := fun p => by
      rw [R.same]
      exact R.once p
    exact List.pairwise_map.mp (pairwise_of_cover_le_one hle)
  case covers =>
    intro p
    have hels : (∃ e ∈ l.elements, e.extent.Has p) ↔
        0 < cover (l.elements.map RangeElement.extent) p := by
      simp only [cover_pos_iff, List.mem_map, exists_exists_and_eq_and]
    have hgs : (∃ g ∈ gs, (g.extent s.regions).Has p) ↔
        0 < cover (gs.map (Grant.extent s.regions)) p := by
      simp only [cover_pos_iff, List.mem_map, exists_exists_and_eq_and]
    rw [hels, hgs, R.same]

theorem Grant.extent_of_sameShape {s s' : State} (h : SameShape s s') (g : Grant) :
    g.extent s'.regions = g.extent s.regions := by
  have hstart : s'.regions[g.region]?.elim 0 Region.start
      = s.regions[g.region]?.elim 0 Region.start := by
    cases hr' : s'.regions[g.region]? with
    | none =>
        cases hr : s.regions[g.region]? with
        | none => rfl
        | some r =>
            obtain ⟨r', hget, -⟩ := h.symm.get hr
            rw [hr'] at hget
            cases hget
    | some r' =>
        obtain ⟨r, hr, hshape⟩ := h.get hr'
        rw [hr]
        exact (Region.shape_eq hshape).1.symm
  rw [Grant.extent, Grant.extent, hstart]

/-- Calls that leave the list alone leave it right. -/
theorem Recording.of_changes {s s' : State} {id : Nat} {gs : List Grant} {l : RegionList}
    (R : Recording s id gs l) (h : Changes s s')
    (hown : ∀ {cl}, s.clients[id]? = some cl →
      ∃ cl', s'.clients[id]? = some cl' ∧ cl'.owner = cl.owner) : Recording s' id gs l := by
  have hext : gs.map (Grant.extent s'.regions) = gs.map (Grant.extent s.regions) :=
    List.map_congr_left fun g _ => Grant.extent_of_sameShape h.sameShape g
  refine ⟨R.below, fun p => ?_, fun p => ?_, fun g hg => ?_⟩
  · rw [hext]
    exact R.same p
  · rw [hext]
    exact R.once p
  · rcases R.backed g hg with h0 | ⟨ρ, r, rfl, b⟩
    · exact .inl h0
    · obtain ⟨r', b'⟩ := b.of_changes h hown
      exact .inr ⟨ρ, r', rfl, b'⟩

/-- The bytes of picked frames are in no range that was backed before. -/
theorem Recording.fresh {s : State} {id : Nat} {gs : List Grant} {l : RegionList}
    (R : Recording s id gs l) (S : Sound s) (M : RamOK s) {g : Found} {r : Region}
    (p : Picked s g r) (hpos : 0 < g.nFrames)
    (hplace : r.attrs = .regular ∨ Isolated s g.region r) {x : Nat}
    (hx : (⟨r.start + g.first * 4096, g.nFrames * 4096⟩ : Extent).Has x) :
    cover (gs.map (Grant.extent s.regions)) x = 0 := by
  by_contra hne
  obtain ⟨e, he, hhas⟩ := cover_pos_iff.mp (Nat.pos_of_ne_zero hne)
  obtain ⟨q, hq, rfl⟩ := List.mem_map.mp he
  rcases R.backed q hq with h0 | ⟨ρ, r', -, b⟩
  · simp only [Grant.extent, Extent.Has, h0] at hhas
    omega
  · have hap : Range.Apart ⟨id, r.start + g.first * 4096, g.nFrames * 4096⟩ ρ :=
      b.apart_picked S M p hplace rfl rfl hpos
    have haddr := b.addr
    have hlen := b.len
    simp only [Grant.extent, b.region, Option.elim_some, Extent.Has, Range.Apart] at hx hhas hap
    omega

/-- **Recording a new range**: picked frames go to the client and `add_range`
records them. -/
theorem Recording.add {s : State} {id owner : Nat} {gs : List Grant} {l : RegionList}
    {es' : List RangeElement} {cl : List Client} {c : Client} {w : Nat} (R : Recording s id gs l)
    (S : Sound s) (M : RamOK s) {g : Found} {r : Region} (p : Picked s g r) (hpos : 0 < g.nFrames)
    (hbelow : r.start + r.bytes < wordSize)
    (hplace : r.attrs = .regular ∨ Isolated s g.region r)
    (hown : ∀ {cl₀}, s.clients[id]? = some cl₀ → ∃ cl', cl[id]? = some cl' ∧ cl'.owner = cl₀.owner)
    (hc : cl[id]? = some c) (hcown : c.owner = owner)
    (hes : es' = ⟨r.start + g.first * 4096, g.nFrames, w⟩ :: l.elements ∨
      ∃ e es, l.elements = e :: es ∧ e.start = r.start + g.first * 4096 + g.nFrames * 4096 ∧
        es' = { e with
          start := r.start + g.first * 4096
          nPhysFrames := add32 e.nPhysFrames g.nFrames } :: es) :
    Recording { s.taken owner g r with clients := cl } id
      (⟨g.region, g.first, g.nFrames, owner⟩ :: gs) { l with elements := es' } := by
  have hch : Changes s { s.taken owner g r with clients := cl } := .taken owner cl p
  have R' := R.of_changes hch hown
  have hin := p.inside S
  have hend : r.start + g.first * 4096 + g.nFrames * 4096 < wordSize := by
    simp only [Region.bytes] at hbelow
    omega
  have hmerge : ∀ {e : RangeElement}, e.start + e.nPhysFrames * 4096 < wordSize →
      e.start = r.start + g.first * 4096 + g.nFrames * 4096 →
      e.nPhysFrames + g.nFrames < wordSize := fun hlt he => by
    simp only [wordSize] at hlt ⊢
    omega
  obtain ⟨r', hr', hshape⟩ := hch.sameShape.symm.get p.region
  obtain ⟨hstart, hn, hattrs, -⟩ := Region.shape_eq hshape
  have hext : (⟨g.region, g.first, g.nFrames, owner⟩ : Grant).extent
        ({ s.taken owner g r with clients := cl } : State).regions
      = ⟨r.start + g.first * 4096, g.nFrames * 4096⟩ := by
    rw [Grant.extent, hr', Option.elim_some, hstart]
  have hgs : gs.map (Grant.extent ({ s.taken owner g r with clients := cl } : State).regions)
      = gs.map (Grant.extent s.regions) :=
    List.map_congr_left fun q _ => Grant.extent_of_sameShape hch.sameShape q
  constructor
  case below =>
    -- a new element in front, or the first one made larger
    rcases hes with rfl | ⟨e, es, hels, he, rfl⟩
    · intro e he
      rcases List.mem_cons.mp he with rfl | he
      · exact hend
      · exact R.below e he
    · intro e₀ he₀
      have hlt := R.below e (by rw [hels]; exact List.mem_cons_self)
      rcases List.mem_cons.mp he₀ with rfl | he₀
      · dsimp only
        rw [add32_eq (hmerge hlt he)]
        refine lt_of_eq_of_lt ?_ hlt
        clear hlt hend hbelow
        omega
      · exact R.below e₀ (by rw [hels]; exact List.mem_cons_of_mem _ he₀)
  case same =>
    intro x
    rw [List.map_cons, cover_cons, hext, hgs, ← R.same]
    rcases hes with rfl | ⟨e, es, hels, he, rfl⟩
    · rw [List.map_cons, cover_cons]
      rfl
    · -- the first element and the new range meet
      have hlt := R.below e (by rw [hels]; exact List.mem_cons_self)
      have hcut := cover_cut (r.start + g.first * 4096) (g.nFrames * 4096) (e.nPhysFrames * 4096) x
      simp only [hels, List.map_cons, cover_cons, RangeElement.extent, he] at hcut ⊢
      rw [add32_eq (hmerge hlt he), Nat.add_mul, Nat.add_comm (e.nPhysFrames * 4096)]
      omega
  case once =>
    intro x
    rw [List.map_cons, cover_cons, hext, hgs]
    -- a byte of the new range was in no range before
    by_cases hx : (⟨r.start + g.first * 4096, g.nFrames * 4096⟩ : Extent).Has x
    · rw [if_pos hx, R.fresh S M p hpos hplace hx]
    · rw [if_neg hx]
      exact R.once x
  case backed =>
    intro q hq
    -- the region list records the new range, and its frames are the owner's
    rcases List.mem_cons.mp hq with rfl | hq
    · refine .inr ⟨⟨id, r.start + g.first * 4096, g.nFrames * 4096⟩, r', rfl,
        ⟨List.mem_cons_self, hr', ⟨c, hc, hcown⟩, ?_, rfl, hpos, ?_⟩⟩
      · rw [hstart]
      · rcases hplace with hreg | hiso
        · exact .inl (hattrs.trans hreg)
        · exact .inr (hiso.of_sameShape hch.sameShape hshape.symm)
    · exact R'.backed q hq

/-! ## §3. The calls of a client. -/

/-- The physical frames a call asks for. -/
def framesAsked (bytes width : Nat) : Nat :=
  shr32 (alignToFrameWidth bytes (max width frameWidth)) frameWidth

/-- `allocate_range` by client `id`. -/
def Call.isBy (id : Nat) : Call → Bool
  | .allocateRange id' .. => id' == id
  | _ => false

/-- **What a call of client `id` must find**: when the quota allows it, the
search names all the frames asked for, in RAM or in a region that shares no byte
with another, and the range fits the client's list. -/
def Call.Fits (id : Nat) (s : State) (bytes width start : Nat) (room : Bool) : Prop :=
  ∀ c l g r, s.clients[id]? = some c → c.regionList = some l →
    add32 c.nAllocatedPhysFrames (framesAsked bytes width) ≤ c.guaranteedFrames →
    findFrames (framesAsked bytes width) (max width frameWidth) start s.regions = .ok (some g) →
    s.regions[g.region]? = some r →
    g.nFrames = framesAsked bytes width ∧
      (r.attrs = .regular ∨ Isolated s g.region r) ∧
      l.Fits room (frameAddress r g.first)
        (add32 (frameAddress r g.first) (shl32 (framesAsked bytes width) frameWidth))

/-- Calls other than `free` whose byte count survives rounding; those of client
`id` find what they must. -/
def Call.Recorded (id : Nat) (s : State) : Call → Prop
  | .allocateRange id' bytes width start room =>
      roundUp bytes width < wordSize ∧ (id' = id → Call.Fits id s bytes width start room)
  | .free .. => False
  | _ => True

theorem Call.Recorded.allocates {id : Nat} {s : State} {c : Call} (h : c.Recorded id s) :
    c.Allocates := by
  cases c with
  | allocateRange id' bytes width start room => exact h.1
  | free id' addr bytes => exact h.elim
  | finishInit => trivial
  | createClient owner granted extra init head room room' => trivial

/-- The grants that a step has added. -/
def newGrants (s s' : State) : List Grant := s'.grants.take (s'.grants.length - s.grants.length)

/-- The invariant of a client and the grants `gs` made to it. -/
structure ClientInv (s : State) (id : Nat) (gs : List Grant) : Prop where
  sound : Sound s
  ram : RamOK s
  created : 0 < id
  client : ∃ c l, s.clients[id]? = some c ∧ c.heap = true ∧ c.regionList = some l ∧
    Recording s id gs l

theorem ClientInv.records {s : State} {id : Nat} {gs : List Grant} (I : ClientInv s id gs) :
    ∃ c l, s.clients[id]? = some c ∧ c.regionList = some l ∧ Records s l gs := by
  obtain ⟨c, l, hc, -, hl, R⟩ := I.client
  exact ⟨c, l, hc, hl, R.records⟩

/-- What a search that fits hands to `add_range`. -/
theorem Call.Fits.picked {id : Nat} {s : State} {bytes width start : Nat} {room : Bool} {c : Client}
    {l : RegionList} {g : Found} {r : Region} (hfits : Call.Fits id s bytes width start room)
    (S : Sound s) (M : RamOK s) (hc : s.clients[id]? = some c) (hl : c.regionList = some l)
    (hpos : 0 < bytes) (hround : roundUp bytes width < wordSize)
    (hquota : add32 c.nAllocatedPhysFrames (framesAsked bytes width) ≤ c.guaranteedFrames)
    (hfind : findFrames (framesAsked bytes width) (max width frameWidth) start s.regions
      = .ok (some g))
    (hr : s.regions[g.region]? = some r) :
    Picked s g r ∧ 0 < g.nFrames ∧ g.nFrames = framesAsked bytes width ∧
      r.start + r.bytes < wordSize ∧ (r.attrs = .regular ∨ Isolated s g.region r) ∧
      frameAddress r g.first = r.start + g.first * 4096 ∧
      add32 (frameAddress r g.first) (shl32 (framesAsked bytes width) frameWidth)
        = r.start + g.first * 4096 + g.nFrames * 4096 ∧
      l.Fits room (frameAddress r g.first)
        (add32 (frameAddress r g.first) (shl32 (framesAsked bytes width) frameWidth)) := by
  obtain ⟨hn, hplace, hlist⟩ := hfits c l g r hc hl hquota hfind hr
  obtain ⟨hw, -⟩ := roundUp_width hpos hround
  obtain ⟨r', p, hcase⟩ := findFrames_picked S (nPhysFrames_eq hpos hround).2
    (nPhysFrames_lt hpos hround) (le_max_right _ _) hw hfind
  obtain rfl : r = r' := Option.some.inj (hr.symm.trans p.region)
  have hmem := List.mem_of_getElem? hr
  have hbelow : r.start + r.bytes < wordSize := by
    rcases hcase with ⟨-, hreg, -, -⟩ | ⟨-, -, hget, -, -⟩
    · exact M.below hmem hreg
    · exact (S.region r hmem).end_lt (getRegion_spec hget).2.2
  have haddr := frameAddress_eq (S.region r hmem) hbelow p.first
  have hin := p.inside S
  have hle : r.start + g.first * 4096 + g.nFrames * 4096 ≤ r.start + r.bytes := by
    simp only [Region.bytes]
    omega
  have hend : r.start + g.first * 4096 + g.nFrames * 4096 < wordSize := lt_of_le_of_lt hle hbelow
  refine ⟨p, ?_, hn, hbelow, hplace, haddr, ?_, hlist⟩
  · rw [hn]
    exact (nPhysFrames_eq hpos hround).2
  · have hlen : g.nFrames * 4096 < wordSize := lt_of_le_of_lt (Nat.le_add_left ..) hend
    rw [haddr, ← hn, shl32_frameWidth hlen, add32_eq hend]

/-- A call that client `id` does not make leaves its record alone. -/
theorem exec_client_other {c : Call} {s s' : State} {a id : Nat} {cl : Client}
    (hok : ∀ r ∈ s.regions, RegionOK r) (hc : c.Allocates) (hby : c.isBy id = false) (hid : 0 < id)
    (h : exec c s = .ok (a, s')) (hcl : s.clients[id]? = some cl) :
    s'.clients[id]? = some cl := by
  cases c with
  -- only the system client is written to
  | finishInit =>
      obtain ⟨s₁, hfin, h⟩ := map_eq_ok.mp h
      cases h
      unfold finishInit at hfin
      split at hfin
      next => cases hfin
      next system hsys =>
        split at hfin
        next => cases hfin
        next =>
          cases hfin
          exact (List.getElem?_set_ne (Nat.ne_of_lt hid)).trans hcl
  | createClient owner granted extra init head room room' =>
      obtain ⟨res, hcreate, h⟩ := map_eq_ok.mp h
      cases h
      -- a client that is created comes behind the others
      rcases createClient_cases hcreate with
        ⟨-, hs⟩ | ⟨system, g, r, s₁, l, hsys, -, -, -, -, htake, -, hs⟩
      · rw [hs]
        exact hcl
      · rw [hs]
        dsimp only
        rw [takeFrames_clients htake, List.getElem?_append_left
          (by rw [List.length_set]; exact (List.getElem?_eq_some_iff.mp hcl).1)]
        exact (List.getElem?_set_ne (Nat.ne_of_lt hid)).trans hcl
  | allocateRange id' bytes width start room =>
      have hne : id' ≠ id := by simpa [Call.isBy] using hby
      -- the call is by another client
      rcases allocateRange_cases hok h with
        ⟨-, hs⟩ | ⟨c, g, r, s₁, l, hcl', -, -, -, -, htake, -, -, hs⟩
      · rw [hs]
        exact hcl
      · rw [hs]
        dsimp only
        rw [takeFrames_clients htake]
        exact (List.getElem?_set_ne hne).trans hcl
  | free id' addr bytes => exact hc.elim

/-- **One call keeps a client's records right.** -/
theorem ClientInv.step {id : Nat} {s s' : State} {gs : List Grant} {c : Call} {a : Nat}
    (I : ClientInv s id gs) (hc : c.Recorded id s) (h : exec c s = .ok (a, s')) :
    ClientInv s' id (if c.isBy id then newGrants s s' ++ gs else gs) := by
  have hch := exec_changes I.sound hc.allocates h
  have hown : ∀ {cl}, s.clients[id]? = some cl →
      ∃ cl', s'.clients[id]? = some cl' ∧ cl'.owner = cl.owner :=
    fun hcl => exec_owner I.sound.region hc.allocates h hcl
  obtain ⟨cl, l, hcl, hheap, hl, R⟩ := I.client
  cases hby : c.isBy id with
  | false =>
      have hsame := exec_client_other I.sound.region hc.allocates hby I.created h hcl
      exact ⟨hch.sound I.sound, I.ram.of_sameShape hch.sameShape, I.created,
        ⟨cl, l, hsame, hheap, hl, R.of_changes hch hown⟩⟩
  | true =>
      cases c with
      | finishInit => cases hby
      | createClient owner granted extra init head room room' => cases hby
      | free id' addr bytes => cases hby
      | allocateRange id' bytes width start room =>
          obtain rfl : id' = id := by simpa [Call.isBy] using hby
          rcases allocateRange_cases I.sound.region h with
            ⟨-, rfl⟩ | ⟨c, g, r, s₁, l', hc', hpos, hquota, hfind, hr, htake, haddr, hadd, hs⟩
          · rw [if_pos rfl, newGrants, Nat.sub_self, List.take_zero, List.nil_append]
            exact I
          · obtain rfl : cl = c := Option.some.inj (hcl.symm.trans hc')
            obtain ⟨p, hpos', hn, hbelow, hplace, hstart, hend, hfits⟩ :=
              (hc.2 rfl).picked I.sound I.ram hcl hl hpos hc.1 hquota hfind hr
            rw [p.takeFrames_eq I.sound] at htake
            cases htake
            have hnew : newGrants s s' = [⟨g.region, g.first, g.nFrames, cl.owner⟩] := by
              rw [hs]
              simp [newGrants, State.taken]
            -- what `add_range` has recorded
            obtain ⟨es', hrec, hes⟩ := addRange_fits (c := { cl with
                nAllocatedPhysFrames := add32 cl.nAllocatedPhysFrames (framesAsked bytes width) })
              (w := max width frameWidth) hheap hl (hn ▸ hpos') hfits
            have hlist : l' = some { l with elements := es' } := by
              rw [haddr] at hadd
              have heq := Except.ok.inj (hadd.symm.trans hrec)
              exact congrArg Client.regionList heq
            rw [if_pos rfl, hnew]
            have hlt : id' < s.clients.length := (List.getElem?_eq_some_iff.mp hcl).1
            set c' : Client := { cl with
              nAllocatedPhysFrames := add32 cl.nAllocatedPhysFrames (framesAsked bytes width)
              regionList := l' } with hc'def
            have hself : (s.clients.set id' c')[id']? = some c' := List.getElem?_set_self hlt
            refine ⟨hch.sound I.sound, I.ram.of_sameShape hch.sameShape, I.created,
              ⟨c', { l with elements := es' }, ?_, hheap, hlist, ?_⟩⟩
            · rw [hs]
              exact hself
            · rw [hend, hstart, ← hn] at hes
              rw [hs] at hown ⊢
              exact R.add I.sound I.ram p hpos' hbelow hplace hown hself rfl hes

/-- A client that was just created has its initial frames recorded. -/
theorem createClient_clientInv {owner granted extra init head id : Nat} {room room' : Bool}
    {s s' : State} (S : Sound s) (M : RamOK s)
    (h : createClient owner granted extra init head room room' s = .ok (some id, s')) :
    ClientInv s' id (newGrants s s') := by
  rcases createClient_cases h with
    ⟨h0, -⟩ | ⟨system, g, r, s₁, l, hsys, -, hid, hfind, hr, htake, hadd, hs⟩
  · cases h0
  · obtain rfl : id = s.clients.length := Option.some.inj hid
    obtain ⟨r', p, hreg, hn, -⟩ := allocAny_picked S (le_refl _) (by decide) (fun _ => rfl) hfind
    obtain rfl : r = r' := Option.some.inj (hr.symm.trans p.region)
    rw [p.takeFrames_eq S] at htake
    cases htake
    have hmem := List.mem_of_getElem? hr
    have hbelow := M.below hmem hreg
    have haddr := frameAddress_eq (S.region r hmem) hbelow p.first
    have hin := p.inside S
    have hend : r.start + g.first * 4096 + g.nFrames * 4096 < wordSize := by
      refine lt_of_le_of_lt ?_ hbelow
      simp only [Region.bytes]
      omega
    have hlt : g.nFrames * 4096 < wordSize := lt_of_le_of_lt (Nat.le_add_left ..) hend
    have hpos : 0 < s.clients.length := (List.getElem?_eq_some_iff.mp hsys).1
    have hnone : s.clients[s.clients.length]? = none := List.getElem?_eq_none (le_refl _)
    have hnew : newGrants s s' = [⟨g.region, g.first, g.nFrames, owner⟩] := by
      rw [hs]
      simp [newGrants, State.taken]
    rw [hnew]
    set c : Client :=
      { owner, nAllocatedPhysFrames := min init granted, guaranteedFrames := granted
        extraFrames := max extra granted, heap := true, regionList := l } with hcdef
    have hself : ∀ c₀ : Client, (s.clients.set 0 c₀ ++ [c])[s.clients.length]? = some c := by
      intro c₀
      rw [List.getElem?_append_right (by rw [List.length_set]), List.length_set, Nat.sub_self]
      rfl
    rw [← hn, haddr] at hadd
    have hch : Changes s s' := by
      rw [hs]
      exact .taken owner _ p
    refine ⟨hch.sound S, M.of_sameShape hch.sameShape, hpos, ?_⟩
    -- before its first call the client has no records at all
    have hempty : Recording s s.clients.length [] ⟨head, []⟩ :=
      ⟨fun e he => (List.not_mem_nil he).elim, fun _ => rfl, fun _ => Nat.zero_le _,
        fun g hg => (List.not_mem_nil hg).elim⟩
    by_cases hz : g.nFrames = 0
    · have hl : l = some ⟨head, []⟩ := by
        rw [hz] at hadd
        exact (congrArg Client.regionList (Except.ok.inj hadd)).symm
      refine ⟨c, ⟨head, []⟩, ?_, rfl, hl, ?_⟩
      · rw [hs]
        exact hself _
      · have hno : ∀ x, cover ([(⟨g.region, g.first, g.nFrames, owner⟩ : Grant)].map
            (Grant.extent s'.regions)) x = 0 := by
          intro x
          rw [List.map_singleton, cover_cons, if_neg]
          · rfl
          · simp only [Extent.Has, Grant.extent, hz]
            omega
        refine ⟨hempty.below, fun x => (hno x).symm, fun x => (hno x).le.trans (Nat.zero_le _),
          fun q hq => .inl ?_⟩
        rw [List.mem_singleton.mp hq]
        exact hz
    · have hroom : room' = true := by
        cases room' with
        | true => rfl
        | false =>
            have hnot : ¬ (g.nFrames = 0) := hz
            simp [addRange, addRangeElement, hnot] at hadd
      have hfits : RegionList.Fits ⟨head, []⟩ room' (r.start + g.first * 4096)
          (add32 (r.start + g.first * 4096) (shl32 g.nFrames frameWidth)) := hroom
      obtain ⟨es', hrec, hes⟩ := addRange_fits (c :=
          { owner, nAllocatedPhysFrames := g.nFrames, guaranteedFrames := granted
            extraFrames := max extra granted, heap := true, regionList := some ⟨head, []⟩ })
        (w := frameWidth) rfl rfl (Nat.pos_of_ne_zero hz) hfits
      have hl : l = some ⟨head, es'⟩ :=
        congrArg Client.regionList (Except.ok.inj (hadd.symm.trans hrec))
      refine ⟨c, ⟨head, es'⟩, ?_, rfl, hl, ?_⟩
      · rw [hs]
        exact hself _
      · rw [shl32_frameWidth hlt, add32_eq hend] at hes
        rw [hs]
        refine hempty.add S M p (Nat.pos_of_ne_zero hz) hbelow (.inl hreg) (fun hcl => ?_)
          (hself _) rfl hes
        rw [hnone] at hcl
        cases hcl

/-! ## §4. Runs. -/

/-- The calls after a client was created, by whomever, each of which met `ok` in
the state before it, and the grants made to the client; newest first. -/
inductive ClientRun (ok : State → Call → Prop) (id : Nat) (s₁ : State) (gs₁ : List Grant) :
    List Grant → State → Prop where
  | nil : ClientRun ok id s₁ gs₁ gs₁ s₁
  | step {gs s c a s'} : ClientRun ok id s₁ gs₁ gs s → ok s c → exec c s = .ok (a, s') →
      ClientRun ok id s₁ gs₁ (if c.isBy id then newGrants s s' ++ gs else gs) s'

theorem ClientInv.run {id : Nat} {s₁ s : State} {gs₁ gs : List Grant} (I : ClientInv s₁ id gs₁)
    (hrun : ClientRun (fun s c => c.Recorded id s) id s₁ gs₁ gs s) : ClientInv s id gs := by
  induction hrun with
  | nil => exact I
  | step _ hc hexec ih => exact ih.step hc hexec

/-- **Region lists record along runs**: on a memory map with disjoint RAM within
32 bits, for a client created after any allocations, the elements of its region
list are disjoint and cover exactly the frames it was given, as long as its
calls find what they must; and then `add_range` records the next range, too. -/
theorem records_along_runs {map : List MmapEntry} {ramtab : Ramtab}
    {regionList : Option RegionList} {s₀ s s₁ s' : State} {evs : List Event} {gs : List Grant}
    {owner granted extra init head id : Nat} {room room' : Bool} (hmap : RamMap map)
    (hcreate : create map ramtab regionList = .ok s₀)
    (hbefore : Run (fun _ c => c.Allocates) s₀ evs s)
    (hclient : createClient owner granted extra init head room room' s = .ok (some id, s₁))
    (hrun : ClientRun (fun s c => c.Recorded id s) id s₁ (newGrants s s₁) gs s') :
    ∃ c l, s'.clients[id]? = some c ∧ c.regionList = some l ∧ Records s' l gs ∧
      ∀ bytes width start room g r, 0 < bytes →
        (Call.allocateRange id bytes width start room).Recorded id s' →
        add32 c.nAllocatedPhysFrames (framesAsked bytes width) ≤ c.guaranteedFrames →
        findFrames (framesAsked bytes width) (max width frameWidth) start s'.regions
          = .ok (some g) →
        s'.regions[g.region]? = some r →
        ∃ c', addRange c room (frameAddress r g.first) (framesAsked bytes width)
          (max width frameWidth) = .ok c' := by
  obtain ⟨S₀, hshape₀⟩ := create_sound hcreate
  obtain ⟨S, hshape⟩ := run_sound S₀ hbefore
  have M : RamOK s := ((freshState_ramOK hmap ramtab regionList).of_sameShape hshape₀).of_sameShape
    hshape
  have I := (createClient_clientInv S M hclient).run hrun
  obtain ⟨c, l, hc, hheap, hl, R⟩ := I.client
  refine ⟨c, l, hc, hl, R.records, ?_⟩
  intro bytes width start room g r hpos hrec hquota hfind hr
  obtain ⟨-, hpos', hn, -, -, -, -, hfits⟩ :=
    (hrec.2 rfl).picked I.sound I.ram hc hl hpos hrec.1 hquota hfind hr
  obtain ⟨es', hadd, -⟩ := addRange_fits hheap hl (hn ▸ hpos') hfits
  exact ⟨_, hadd⟩

/-- Sixteen frames of RAM. -/
def wideMap : List MmapEntry := [⟨0, 0x10000, .free⟩]

/-- The allocator over them, after `finish_init`. -/
def ready : State := (created wideMap (emptyRamtab 16)).after .finishInit

/-- The same with a client that was given no frames yet. -/
def withClient : State := ready.after (.createClient 0x100000 8 8 0 0 true true)

theorem create_wide : create wideMap (emptyRamtab 16) none = .ok (created wideMap (emptyRamtab 16)) :=
  create_created (by decide +kernel)

theorem ready_run : Run (fun _ c => c.Allocates) (created wideMap (emptyRamtab 16))
    [⟨.finishInit, 0⟩] ready :=
  .step .nil trivial (exec_after (by decide +kernel))

theorem withClient_created :
    createClient 0x100000 8 8 0 0 true true ready = .ok (some 1, withClient) := by
  have hexec : exec (.createClient 0x100000 8 8 0 0 true true) ready = .ok (1, withClient) :=
    exec_after (by decide +kernel)
  have hid : (createClient 0x100000 8 8 0 0 true true ready).toOption.map Prod.fst = some (some 1) := by
    decide +kernel
  cases hc : createClient 0x100000 8 8 0 0 true true ready with
  | error f =>
      rw [hc] at hid
      cases hid
  | ok res =>
      obtain ⟨id, s⟩ := res
      rw [hc] at hid
      have hid : id = some 1 := Option.some.inj hid
      rw [exec, hc] at hexec
      have hs : s = withClient := congrArg Prod.snd (Except.ok.inj hexec)
      rw [hid, hs]

/-- The client's first range is recorded. -/
theorem records_small_run :
    ∃ gs c l, (withClient.after (.allocateRange 1 0x1000 12 0x8000 true)).clients[1]? = some c ∧
      c.regionList = some l ∧
      Records (withClient.after (.allocateRange 1 0x1000 12 0x8000 true)) l gs := by
  have hrec : (Call.allocateRange 1 0x1000 12 0x8000 true).Recorded 1 withClient := by
    refine ⟨by decide, fun _ c l g r hc hl _ hfind hr => ?_⟩
    have hlist : withClient.clients[1]?.map Client.regionList = some (some ⟨0, []⟩) := by
      decide +kernel
    have hg : (findFrames (framesAsked 0x1000 12) (max 12 frameWidth) 0x8000
        withClient.regions).toOption = some (some ⟨0, 8, 1⟩) := by decide +kernel
    have hram : ∀ r ∈ withClient.regions, r.attrs = .regular := by decide +kernel
    rw [hc, Option.map_some, hl] at hlist
    rw [hfind] at hg
    obtain rfl : l = ⟨0, []⟩ := Option.some.inj (Option.some.inj hlist)
    obtain rfl : g = ⟨0, 8, 1⟩ := Option.some.inj (Option.some.inj hg)
    exact ⟨by decide, .inl (hram r (List.mem_of_getElem? hr)), rfl⟩
  have hmap : RamMap wideMap := ⟨by decide, by decide⟩
  obtain ⟨c, l, hc, hl, R, -⟩ := records_along_runs hmap create_wide ready_run withClient_created
    (.step .nil hrec (exec_after (a := 0x8000) (by decide +kernel)))
  exact ⟨_, c, l, hc, hl, R⟩

theorem exec_fault {c : Call} {s : State} {f : Fault}
    (h : (match exec c s with | .error f => some f | .ok _ => none) = some f) :
    exec c s = .error f := by
  cases hc : exec c s with
  | error f' =>
      rw [hc] at h
      exact congrArg Except.error (Option.some.inj h)
  | ok r =>
      rw [hc] at h
      cases h

/-- A page at `0x8000`, one at `0x1000` and one between them: the first lies after
the second, and `add_range` has not been written for the third. -/
theorem addRange_unimplemented :
    RamMap wideMap ∧
      create wideMap (emptyRamtab 16) none = .ok (created wideMap (emptyRamtab 16)) ∧
      Run (fun _ c => c.Allocates) (created wideMap (emptyRamtab 16)) [⟨.finishInit, 0⟩] ready ∧
      createClient 0x100000 8 8 0 0 true true ready = .ok (some 1, withClient) ∧
      ∃ gs s, ClientRun (fun _ c => c.Allocates) 1 withClient (newGrants ready withClient) gs s ∧
        (Call.allocateRange 1 0x1000 12 0x4000 true).Served s ∧
        exec (.allocateRange 1 0x1000 12 0x4000 true) s = .error (.panic "Unimplemented!") := by
  have hround : ∀ start, (Call.allocateRange 1 0x1000 12 start true).Allocates := by
    intro start
    show roundUp 0x1000 12 < wordSize
    decide
  refine ⟨⟨by decide, by decide⟩, create_wide, ready_run, withClient_created, _,
    (withClient.after (.allocateRange 1 0x1000 12 0x8000 true)).after
      (.allocateRange 1 0x1000 12 0x1000 true),
    .step (.step .nil (hround 0x8000) (exec_after (a := 0x8000) (by decide +kernel)))
      (hround 0x1000) (exec_after (a := 0x1000) (by decide +kernel)),
    ⟨by decide, fun _ i r hget => ?_⟩, exec_fault (by decide +kernel)⟩
  have hfree : (getRegion 0x4000 ((withClient.after (.allocateRange 1 0x1000 12 0x8000 true)).after
      (.allocateRange 1 0x1000 12 0x1000 true)).regions 0).map
        (fun p => (p.2.attrs, p.2.frames (bytesToLogFrames (sub32 0x4000 p.2.start) p.2.frameWidth)))
      = some (.regular, 4) := by decide +kernel
  rw [hget] at hfree
  simp only [Option.map_some, Option.some.injEq, Prod.mk.injEq] at hfree
  exact ⟨.inl hfree.1, by rw [hfree.2]; decide⟩

end Metta.FramesMod
