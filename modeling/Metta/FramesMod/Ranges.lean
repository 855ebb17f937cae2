/-
  Metta.FramesMod.Ranges — what the addresses handed out stand for.

  `allocate_range` answers with an address alone; the client takes it that
  the bytes from there on, as many as it asked for rounded up to the frame
  width, are now its own.  `alloc_range` gives fewer frames than asked for
  when fewer are free, and rounding can wrap to no frame at all, so this is
  true of the calls that are `Served`: enough frames are free at the address
  asked for, and the byte count survives rounding.  In runs of such calls
  every range answered is reserved for its client, and the ranges are disjoint
  (`ranges_reserved_along_runs`).
-/
import Metta.FramesMod.Run

namespace Metta.FramesMod

open Metta.Machine

/-! ## §1. RAM regions. -/

/-- Two regions have no byte in common. -/
def Region.Apart (r r' : Region) : Prop :=
  r.start + r.bytes ≤ r'.start ∨ r'.start + r'.bytes ≤ r.start

/-- The bytes of two entries are disjoint. -/
def MmapEntry.Apart (e e' : MmapEntry) : Prop :=
  e.address + e.size ≤ e'.address ∨ e'.address + e'.size ≤ e.address

instance (e e' : MmapEntry) : Decidable (e.Apart e') :=
  inferInstanceAs (Decidable (_ ≤ _ ∨ _ ≤ _))

/-- The RAM entries of a map are disjoint, and within 32 bits. -/
structure RamMap (map : List MmapEntry) : Prop where
  below : ∀ e ∈ map, e.type.isRam = true → e.address + e.size < wordSize
  apart : map.Pairwise fun e e' =>
    e.type.isRam = true → e'.type.isRam = true → e.Apart e'

/-- The RAM regions of a state are disjoint, and within 32 bits. -/
structure RamOK (s : State) : Prop where
  below : ∀ {r : Region}, r ∈ s.regions → r.attrs = .regular → r.start + r.bytes < wordSize
  apart : ∀ {i i' : Nat} {r r' : Region}, s.regions[i]? = some r → s.regions[i']? = some r' →
    i ≠ i' → r.attrs = .regular → r'.attrs = .regular → r.Apart r'

theorem mkRegion_regular {e : MmapEntry} (h : (mkRegion e).attrs = .regular) :
    e.type.isRam = true := by
  simp only [mkRegion] at h
  split at h
  next hram => exact hram
  next => cases h

/-- A region of RAM within 32 bits loses nothing of its entry but the last,
incomplete frame. -/
theorem mkRegion_below {e : MmapEntry} (h : e.address + e.size < wordSize) :
    (mkRegion e).start = e.address ∧ (mkRegion e).nLogicalFrames = e.size / 4096 := by
  constructor
  · exact Nat.mod_eq_of_lt (by omega)
  · simp only [mkRegion, physFrameNumber, shr32_frameWidth]
    rw [Nat.mod_eq_of_lt (by omega)]

theorem freshState_ramOK {map : List MmapEntry} (hmap : RamMap map) (ramtab : Ramtab)
    (regionList : Option RegionList) : RamOK (freshState map ramtab regionList) := by
  have hpair : (freshState map ramtab regionList).regions.Pairwise fun r r' =>
      r.attrs = .regular → r'.attrs = .regular → r.Apart r' := by
    refine List.pairwise_map.mpr ?_
    refine (hmap.apart.filter _).imp_of_mem fun {e e'} he he' hapart hreg hreg' => ?_
    have hram := mkRegion_regular hreg
    have hram' := mkRegion_regular hreg'
    obtain ⟨hs, hn⟩ := mkRegion_below (hmap.below e (List.mem_filter.mp he).1 hram)
    obtain ⟨hs', hn'⟩ := mkRegion_below (hmap.below e' (List.mem_filter.mp he').1 hram')
    have := hapart hram hram'
    simp only [MmapEntry.Apart, Region.Apart, Region.bytes, hs, hn, hs', hn'] at *
    omega
  constructor
  · intro r hr hreg
    obtain ⟨e, he, rfl⟩ := List.mem_map.mp hr
    have hlt := hmap.below e (List.mem_filter.mp he).1 (mkRegion_regular hreg)
    obtain ⟨hs, hn⟩ := mkRegion_below hlt
    simp only [Region.bytes, hs, hn]
    omega
  · intro i i' r r' hr hr' hne hreg hreg'
    obtain ⟨hi, rfl⟩ := List.getElem?_eq_some_iff.mp hr
    obtain ⟨hi', rfl⟩ := List.getElem?_eq_some_iff.mp hr'
    rcases Nat.lt_or_gt_of_ne hne with hlt | hlt
    · exact List.pairwise_iff_getElem.mp hpair i i' hi hi' hlt hreg hreg'
    · have := List.pairwise_iff_getElem.mp hpair i' i hi' hi hlt hreg' hreg
      exact this.symm

theorem RamOK.of_sameShape {s s' : State} (h : RamOK s) (hs : SameShape s s') : RamOK s' := by
  constructor
  · intro r' hr' hreg
    obtain ⟨i, hi⟩ := List.mem_iff_getElem?.mp hr'
    obtain ⟨r, hr, heq⟩ := hs.get hi
    obtain ⟨h1, h2, h3, -⟩ := Region.shape_eq heq
    have := h.below (List.mem_of_getElem? hr) (h3.trans hreg)
    simp only [Region.bytes] at *
    rwa [← h1, ← h2]
  · intro i i' r r' hr hr' hne hreg hreg'
    obtain ⟨q, hq, heq⟩ := hs.get hr
    obtain ⟨q', hq', heq'⟩ := hs.get hr'
    obtain ⟨h1, h2, h3, -⟩ := Region.shape_eq heq
    obtain ⟨h1', h2', h3', -⟩ := Region.shape_eq heq'
    have := h.apart hq hq' hne (h3.trans hreg) (h3'.trans hreg')
    simp only [Region.Apart, Region.bytes] at *
    rwa [← h1, ← h2, ← h1', ← h2']

/-- Region `i` has no byte in common with any other. -/
def Isolated (s : State) (i : Nat) (r : Region) : Prop :=
  ∀ i' r', s.regions[i']? = some r' → i' ≠ i → r.Apart r'

theorem Isolated.of_sameShape {s s' : State} (hs : SameShape s s') {i : Nat} {r r' : Region}
    (h : Isolated s i r) (hshape : r.shape = r'.shape) : Isolated s' i r' := by
  intro j q' hq' hne
  obtain ⟨q, hq, heq⟩ := hs.get hq'
  obtain ⟨h1, h2, -, -⟩ := Region.shape_eq heq
  obtain ⟨h1', h2', -, -⟩ := Region.shape_eq hshape
  have := h j q hq hne
  simp only [Region.Apart, Region.bytes] at *
  rwa [← h1, ← h2, ← h1', ← h2']

/-- The address of a frame, when the region does not wrap. -/
theorem frameAddress_eq {r : Region} (h : RegionOK r) (hlt : r.start + r.bytes < wordSize)
    {j : Nat} (hj : j < r.nLogicalFrames) : frameAddress r j = r.start + j * 4096 := by
  have hin : r.start + j * 4096 < wordSize := by
    refine lt_of_le_of_lt ?_ hlt
    simp only [Region.bytes]
    omega
  rw [frameAddress_mod h (lt_trans hj h.nLt), Nat.mod_eq_of_lt hin]

/-! ## §2. Ownership of RAM frames. -/

/-- RAM regions start at pages and the ramtab covers them. -/
structure RamTabled (s : State) : Prop where
  page : ∀ {r : Region}, r ∈ s.regions → r.attrs = .regular → r.start % 4096 = 0
  covered : ∀ {r : Region}, r ∈ s.regions → r.attrs = .regular →
    r.start / 4096 + r.nLogicalFrames ≤ s.ramtab.size

theorem freshState_ramTabled {map : List MmapEntry} (hmap : RamMap map) {ramtab : Ramtab}
    (regionList : Option RegionList)
    (hpage : ∀ e ∈ map, e.type.isRam = true → e.address % 4096 = 0)
    (hcov : ∀ e ∈ map, e.type.isRam = true → (e.address + e.size) / 4096 ≤ ramtab.size) :
    RamTabled (freshState map ramtab regionList) := by
  constructor
  · intro r hr hreg
    obtain ⟨e, he, rfl⟩ := List.mem_map.mp hr
    have hmem := (List.mem_filter.mp he).1
    have hram := mkRegion_regular hreg
    rw [(mkRegion_below (hmap.below e hmem hram)).1]
    exact hpage e hmem hram
  · intro r hr hreg
    obtain ⟨e, he, rfl⟩ := List.mem_map.mp hr
    have hmem := (List.mem_filter.mp he).1
    have hram := mkRegion_regular hreg
    obtain ⟨hs, hn⟩ := mkRegion_below (hmap.below e hmem hram)
    have h1 := hcov e hmem hram
    have h2 := hpage e hmem hram
    have hsize : (freshState map ramtab regionList).ramtab.size = ramtab.size := rfl
    rw [hs, hn, hsize]
    omega

theorem taken_ramtab_size {s : State} (S : Sound s) (owner : Nat) {g : Found} {r : Region}
    (p : Picked s g r) : (s.taken owner g r).ramtab.size = s.ramtab.size := by
  have hr := S.region r (List.mem_of_getElem? p.region)
  have hin := p.inside S
  have hn := hr.nLt
  have hs := hr.startLt
  simp only [State.taken]
  split
  next =>
    refine Ramtab.size_putLogFrames ?_
    simp only [wordSize] at *
    omega
  next => rfl

theorem Changes.ramTabled {s s' : State} (h : Changes s s') (S : Sound s) (T : RamTabled s) :
    RamTabled s' := by
  have hsize : s'.ramtab.size = s.ramtab.size := by
    cases h with
    | clients cl => rfl
    | taken owner cl p => exact taken_ramtab_size S owner p
  constructor
  · intro r' hr' hreg
    obtain ⟨i, hi⟩ := List.mem_iff_getElem?.mp hr'
    obtain ⟨r, hr, heq⟩ := h.sameShape.get hi
    obtain ⟨h1, h2, h3, -⟩ := Region.shape_eq heq
    rw [← h1]
    exact T.page (List.mem_of_getElem? hr) (h3.trans hreg)
  · intro r' hr' hreg
    obtain ⟨i, hi⟩ := List.mem_iff_getElem?.mp hr'
    obtain ⟨r, hr, heq⟩ := h.sameShape.get hi
    obtain ⟨h1, h2, h3, -⟩ := Region.shape_eq heq
    rw [← h1, ← h2, hsize]
    exact T.covered (List.mem_of_getElem? hr) (h3.trans hreg)

/-- Every frame of RAM that was given out belongs, in the ramtab, to the client
it was given to. -/
def Owned (s : State) : Prop :=
  ∀ g ∈ s.grants, ∀ r, s.regions[g.region]? = some r → r.attrs = .regular →
    ∀ j, g.first ≤ j → j < g.first + g.nFrames →
      ∃ e, s.ramtab.get (r.start / 4096 + j) = some e ∧ e.owner = g.owner

/-- The ramtab entries after frames were taken. -/
theorem taken_entry {s : State} (S : Sound s) (owner : Nat) {g : Found} {r : Region}
    (p : Picked s g r) (x : Nat) :
    (s.taken owner g r).ramtab.entry x
      = if r.attrs = .regular ∧ r.start / 4096 + g.first ≤ x ∧
            x < r.start / 4096 + g.first + g.nFrames ∧ x < s.ramtab.size then
          ⟨owner, frameWidth, .unused⟩
        else s.ramtab.entry x := by
  have hr := S.region r (List.mem_of_getElem? p.region)
  have hin := p.inside S
  have hn := hr.nLt
  have hs := hr.startLt
  simp only [State.taken]
  by_cases hram : r.ramtab = true
  · have hreg := hr.ram.mp hram
    rw [if_pos hram, Ramtab.entry_putLogFrames (by simp only [wordSize] at *; omega)]
    simp only [hreg, true_and]
  · have hreg : ¬ r.attrs = .regular := fun hh => hram (hr.ram.mpr hh)
    rw [if_neg hram, if_neg fun hh => hreg hh.1]

theorem Picked.owned {s : State} (S : Sound s) (R : RamOK s) (T : RamTabled s) (O : Owned s)
    (owner : Nat) {g : Found} {r : Region} (p : Picked s g r) :
    Owned (s.taken owner g r) := by
  have hmem := List.mem_of_getElem? p.region
  have hin := p.inside S
  intro q hq r' hr' hreg' j hj hj'
  rw [Ramtab.get, taken_ramtab_size S owner p, taken_entry S owner p]
  -- the region of the grant, before the frames were taken
  obtain ⟨r₀, hr₀, heq⟩ := (taken_sameShape owner p.region).get hr'
  obtain ⟨h1, h2, h3, -⟩ := Region.shape_eq heq
  have hreg₀ : r₀.attrs = .regular := h3.trans hreg'
  have hpage₀ := T.page (List.mem_of_getElem? hr₀) hreg₀
  rw [← h1]
  rcases List.mem_cons.mp hq with rfl | hq
  · -- the frames just taken
    have hrr : r₀ = r := Option.some.inj (hr₀.symm.trans p.region)
    have hcov := T.covered hmem (hrr ▸ hreg₀)
    simp only at hj hj'
    rw [hrr, if_pos (by omega), if_pos ⟨hrr ▸ hreg₀, by omega, by omega, by omega⟩]
    exact ⟨_, rfl, rfl⟩
  · obtain ⟨e, hget, howner⟩ := O q hq r₀ hr₀ hreg₀ j hj hj'
    have hlt : r₀.start / 4096 + j < s.ramtab.size := by
      by_contra hge
      rw [Ramtab.get, if_neg hge] at hget
      cases hget
    rw [Ramtab.get, if_pos hlt] at hget
    rw [if_pos hlt, if_neg]
    · exact ⟨e, hget, howner⟩
    · -- an entry of another frame
      rintro ⟨hreg, hlo, hhi, -⟩
      have hbusy : busy s.grants q.region j := ⟨q, hq, rfl, hj, hj'⟩
      have hjn := S.inside hq hr₀
      by_cases hsame : q.region = g.region
      · have hrr : r₀ = r := Option.some.inj (hr₀.symm.trans (hsame ▸ p.region))
        rw [hrr] at hlo hhi
        exact p.not_busy S (by omega) (by omega) (hsame ▸ hbusy)
      · have hap := R.apart hr₀ p.region hsame hreg₀ hreg
        have hpage := T.page hmem hreg
        simp only [Region.Apart, Region.bytes] at hap
        omega

/-! ## §3. The ranges that calls answer with. -/

/-- The bytes that a client takes for its own. -/
structure Range where
  id : Nat
  addr : Nat
  len : Nat
  deriving Repr, DecidableEq

/-- The range an event stands for, when its answer is an address. -/
def Event.range (ev : Event) : Option Range :=
  match ev.call with
  | .allocateRange id bytes width _ _ =>
      if ev.answer = noAddress then none else some ⟨id, ev.answer, roundUp bytes width⟩
  | _ => none

/-- The ranges answered in a run, newest first. -/
def ranges (evs : List Event) : List Range := evs.filterMap Event.range

/-- Two ranges have no byte in common. -/
def Range.Apart (ρ ρ' : Range) : Prop :=
  ρ.addr + ρ.len ≤ ρ'.addr ∨ ρ'.addr + ρ'.len ≤ ρ.addr

/-- **A range is reserved for an owner**: it lies in one region, all its frames
are taken there, and in RAM the ramtab has them all under that owner. -/
def Reserved (s : State) (owner : Nat) (ρ : Range) : Prop :=
  ∃ (i : Nat) (r : Region), s.regions[i]? = some r ∧ r.start ≤ ρ.addr ∧ ρ.addr + ρ.len ≤ r.start + r.bytes ∧
    (∀ j, ρ.addr ≤ r.start + j * 4096 → r.start + j * 4096 < ρ.addr + ρ.len →
      r.frames j = 0) ∧
    (r.ramtab = true → ∀ f, ρ.addr ≤ f * 4096 → f * 4096 < ρ.addr + ρ.len →
      ∃ e, s.ramtab.get f = some e ∧ e.owner = owner)

/-- **Calls that get what they ask for**: not `free`; the byte count survives
rounding; and where an address is asked for, its region is RAM or shares no
byte with another, and has enough free frames from there on. -/
def Call.Served (s : State) : Call → Prop
  | .allocateRange _ bytes width start _ =>
      roundUp bytes width < wordSize ∧
        (unaligned start = false → ∀ i r, getRegion start s.regions 0 = some (i, r) →
          (r.attrs = .regular ∨ Isolated s i r) ∧
            roundUp bytes width / 4096
              ≤ r.frames (bytesToLogFrames (sub32 start r.start) r.frameWidth))
  | .free .. => False
  | _ => True

theorem Call.Served.allocates {s : State} {c : Call} (h : c.Served s) : c.Allocates := by
  cases c with
  | allocateRange id bytes width start room => exact h.1
  | free id addr bytes => exact h.elim
  | finishInit => trivial
  | createClient owner granted extra init head room room' => trivial

/-- The range `ρ` is what the grant `g` in region `r` gave to client `ρ.id`. -/
structure Backs (s : State) (ρ : Range) (g : Grant) (r : Region) : Prop where
  grant : g ∈ s.grants
  region : s.regions[g.region]? = some r
  owner : ∃ c, s.clients[ρ.id]? = some c ∧ c.owner = g.owner
  addr : ρ.addr = r.start + g.first * 4096
  len : ρ.len = g.nFrames * 4096
  pos : 0 < g.nFrames
  place : r.attrs = .regular ∨ Isolated s g.region r

/-- A backed range is reserved. -/
theorem Backs.reserved {s : State} (S : Sound s) (T : RamTabled s) (O : Owned s) {ρ : Range}
    {g : Grant} {r : Region} (b : Backs s ρ g r) :
    ∃ c, s.clients[ρ.id]? = some c ∧ Reserved s c.owner ρ := by
  obtain ⟨c, hc, howner⟩ := b.owner
  have hin := S.inside b.grant b.region
  have hmem := List.mem_of_getElem? b.region
  have haddr := b.addr
  have hlen := b.len
  refine ⟨c, hc, g.region, r, b.region, by omega, ?_, ?_, ?_⟩
  · simp only [Region.bytes]
    omega
  · intro j hj hj'
    have hbusy : busy s.grants g.region j := ⟨g, b.grant, rfl, by omega, by omega⟩
    exact ((S.counts b.region).eq_zero_iff (by omega)).mpr hbusy
  · intro hram f hf hf'
    have hreg := (S.region r hmem).ram.mp hram
    have hpage := T.page hmem hreg
    have hj := O g b.grant r b.region hreg (f - r.start / 4096) (by omega) (by omega)
    rw [show r.start / 4096 + (f - r.start / 4096) = f by omega] at hj
    rw [howner]
    exact hj

/-- A client keeps its place and its owner id. -/
theorem exec_owner {c : Call} {s s' : State} {a : Nat} (hok : ∀ r ∈ s.regions, RegionOK r)
    (hc : c.Allocates) (h : exec c s = .ok (a, s')) {id : Nat} {cl : Client}
    (hcl : s.clients[id]? = some cl) :
    ∃ cl', s'.clients[id]? = some cl' ∧ cl'.owner = cl.owner := by
  -- every operation replaces one record by one with the same owner
  have hset : ∀ {k : Nat} {old : Client} (new : Client), s.clients[k]? = some old →
      new.owner = old.owner →
      ∃ cl', (s.clients.set k new)[id]? = some cl' ∧ cl'.owner = cl.owner := by
    intro k old new hold hown
    rw [List.getElem?_set]
    by_cases hk : k = id
    · subst hk
      have hlt : k < s.clients.length := (List.getElem?_eq_some_iff.mp hold).1
      rw [if_pos rfl, if_pos hlt]
      rw [hold] at hcl
      cases hcl
      exact ⟨new, rfl, hown⟩
    · rw [if_neg hk]
      exact ⟨cl, hcl, rfl⟩
  cases c with
  | finishInit =>
      obtain ⟨s₁, hfin, h⟩ := map_eq_ok.mp h
      cases h
      unfold finishInit at hfin
      split at hfin
      next => cases hfin
      next system hsys =>
        split at hfin
        next => cases hfin
        next => cases hfin; exact hset _ hsys rfl
  | createClient owner granted extra init head room room' =>
      obtain ⟨res, hcreate, h⟩ := map_eq_ok.mp h
      cases h
      rcases createClient_cases hcreate with
        ⟨-, hs⟩ | ⟨system, g, r, s₁, l, hsys, -, -, -, -, htake, -, hs⟩
      · rw [hs]
        exact ⟨cl, hcl, rfl⟩
      · rw [hs]
        dsimp only
        rw [takeFrames_clients htake]
        obtain ⟨cl', hcl', hown⟩ := hset { system with
          nAllocatedPhysFrames := add32 system.nAllocatedPhysFrames (min init granted) } hsys rfl
        refine ⟨cl', ?_, hown⟩
        rw [List.getElem?_append_left (List.getElem?_eq_some_iff.mp hcl').1]
        exact hcl'
  | allocateRange id' bytes width start room =>
      rcases allocateRange_cases hok h with
        ⟨-, hs⟩ | ⟨c, g, r, s₁, l, hcl', -, -, -, -, htake, -, -, hs⟩
      · rw [hs]
        exact ⟨cl, hcl, rfl⟩
      · rw [hs]
        dsimp only
        rw [takeFrames_clients htake]
        exact hset _ hcl' rfl
  | free id' addr bytes => exact hc.elim

/-- **What a served call finds**: as many free frames as it asked for, at an
address that does not wrap. -/
theorem findFrames_served {id bytes width start : Nat} {room : Bool} {s : State} {g : Found}
    (S : Sound s) (R : RamOK s) (hserved : (Call.allocateRange id bytes width start room).Served s)
    (hpos : 0 < bytes)
    (hfind : findFrames (shr32 (alignToFrameWidth bytes (max width frameWidth)) frameWidth)
      (max width frameWidth) start s.regions = .ok (some g)) :
    ∃ r, Picked s g r ∧ r.start + r.bytes < wordSize ∧
      g.nFrames = shr32 (alignToFrameWidth bytes (max width frameWidth)) frameWidth ∧
      roundUp bytes width = g.nFrames * 4096 ∧ 0 < g.nFrames ∧
      (r.attrs = .regular ∨ Isolated s g.region r) ∧
      (unaligned start = true → r.attrs = .regular ∧ r.start % 4096 = 0) := by
  obtain ⟨hround, hplace⟩ := hserved
  obtain ⟨hw, -⟩ := roundUp_width hpos hround
  obtain ⟨hn, hn0⟩ := nPhysFrames_eq hpos hround
  obtain ⟨r, p, hcase⟩ := findFrames_picked S hn0 (nPhysFrames_lt hpos hround)
    (le_max_right _ _) hw hfind
  have hmem := List.mem_of_getElem? p.region
  rcases hcase with ⟨-, hreg, hgn, hpage⟩ | ⟨heven, -, hget, hfirst, hmin⟩
  · refine ⟨r, p, R.below hmem hreg, hgn, ?_, hgn ▸ hn0, .inl hreg, fun _ => ⟨hreg, hpage⟩⟩
    rw [hgn, hn]
  · obtain ⟨hpl, henough⟩ := hplace heven g.region r hget
    rw [← hfirst, ← hn, Nat.mul_div_cancel _ (by decide)] at henough
    have hgn := hmin.trans (min_eq_left henough)
    refine ⟨r, p, (S.region r hmem).end_lt (getRegion_spec hget).2.2, hgn, ?_, hgn ▸ hn0, hpl,
      fun hodd => ?_⟩
    · rw [hgn, hn]
    · rw [heven] at hodd
      cases hodd

/-- **A served call that answers with an address** has taken all the frames of
its range, from that address on. -/
theorem allocateRange_served {id bytes width start : Nat} {room : Bool} {s s' : State} {a : Nat}
    (S : Sound s) (R : RamOK s) (hserved : (Call.allocateRange id bytes width start room).Served s)
    (h : allocateRange id bytes width start room s = .ok (a, s')) (ha : a ≠ noAddress) :
    ∃ c g r cl, s.clients[id]? = some c ∧ Picked s g r ∧
      s' = { s.taken c.owner g r with clients := cl } ∧
      a = r.start + g.first * 4096 ∧ roundUp bytes width = g.nFrames * 4096 ∧ 0 < g.nFrames ∧
      (r.attrs = .regular ∨ Isolated s g.region r) ∧
      (unaligned start = true → r.attrs = .regular ∧ r.start % 4096 = 0) := by
  rcases allocateRange_cases S.region h with
    ⟨hno, -⟩ | ⟨c, g, r, s₁, l, hcl, hpos, -, hfind, hr, htake, haddr, -, hs⟩
  · exact absurd hno ha
  · obtain ⟨r', p, hbelow, -, hlen, hn0, hpl, hany⟩ := findFrames_served S R hserved hpos hfind
    have hrr : r = r' := Option.some.inj (hr.symm.trans p.region)
    subst hrr
    have hok := S.region r (List.mem_of_getElem? hr)
    rw [p.takeFrames_eq S] at htake
    cases htake
    exact ⟨c, g, r, _, hcl, p, hs, haddr.trans (frameAddress_eq hok hbelow p.first), hlen, hn0,
      hpl, hany⟩

/-! ## §4. Runs of served calls. -/

/-- The invariant of a run of served calls. -/
structure RangesInv (s : State) (evs : List Event) : Prop where
  sound : Sound s
  ram : RamOK s
  tabled : RamTabled s
  owned : Owned s
  backed : ∀ {ρ}, ρ ∈ ranges evs → ∃ g r, Backs s ρ g r
  apart : (ranges evs).Pairwise Range.Apart

theorem Changes.owned {s s' : State} (h : Changes s s') (S : Sound s) (R : RamOK s)
    (T : RamTabled s) (O : Owned s) : Owned s' := by
  cases h with
  | clients cl => exact O
  | taken owner cl p => exact p.owned S R T O owner

theorem Changes.grants {s s' : State} (h : Changes s s') {g : Grant} (hg : g ∈ s.grants) :
    g ∈ s'.grants := by
  cases h with
  | clients cl => exact hg
  | taken owner cl p => exact List.mem_cons_of_mem _ hg

/-- A range stays backed. -/
theorem Backs.of_changes {s s' : State} {ρ : Range} {g : Grant} {r : Region}
    (b : Backs s ρ g r) (h : Changes s s')
    (hown : ∀ {cl}, s.clients[ρ.id]? = some cl →
      ∃ cl', s'.clients[ρ.id]? = some cl' ∧ cl'.owner = cl.owner) :
    ∃ r', Backs s' ρ g r' := by
  obtain ⟨r', hr', heq⟩ := h.sameShape.symm.get b.region
  obtain ⟨h1, h2, h3, -⟩ := Region.shape_eq heq
  obtain ⟨cl, hcl, howner⟩ := b.owner
  obtain ⟨cl', hcl', howner'⟩ := hown hcl
  refine ⟨r', h.grants b.grant, hr', ⟨cl', hcl', howner'.trans howner⟩, ?_, b.len, b.pos, ?_⟩
  · rw [h1]
    exact b.addr
  · rcases b.place with hreg | hiso
    · exact .inl (h3.trans hreg)
    · exact .inr (hiso.of_sameShape h.sameShape heq.symm)

/-- New frames lie apart from every range answered before. -/
theorem Backs.apart_picked {s : State} (S : Sound s) (R : RamOK s) {ρ ρ' : Range} {q : Grant}
    {g : Found} {r r' : Region} (b : Backs s ρ q r) (p : Picked s g r')
    (hplace : r'.attrs = .regular ∨ Isolated s g.region r')
    (haddr : ρ'.addr = r'.start + g.first * 4096) (hlen : ρ'.len = g.nFrames * 4096)
    (hpos : 0 < g.nFrames) : ρ'.Apart ρ := by
  have hin := S.inside b.grant b.region
  have hin' := p.inside S
  have h1 := b.addr
  have h2 := b.len
  have h3 := b.pos
  unfold Range.Apart
  by_cases hsame : q.region = g.region
  · -- one region: the new frames were free, those of the old range were not
    have hrr : r = r' := Option.some.inj (b.region.symm.trans (hsame ▸ p.region))
    rw [hrr] at h1
    have hno : ∀ j, g.first ≤ j → j < g.first + g.nFrames → q.first ≤ j →
        ¬ j < q.first + q.nFrames := by
      intro j hj hj' hq hq'
      exact p.not_busy S hj hj' ⟨q, b.grant, hsame, hq, hq'⟩
    have := hno g.first (le_refl _) (by omega)
    have := hno q.first
    omega
  · have hap : r'.Apart r := by
      rcases hplace with hreg' | hiso'
      · rcases b.place with hreg | hiso
        · exact R.apart p.region b.region (Ne.symm hsame) hreg' hreg
        · exact (hiso g.region r' p.region (Ne.symm hsame)).symm
      · exact hiso' q.region r b.region hsame
    simp only [Region.Apart, Region.bytes] at hap
    omega

/-- **One served call keeps the invariant.** -/
theorem RangesInv.step {s s' : State} {evs : List Event} {c : Call} {a : Nat}
    (I : RangesInv s evs) (hc : c.Served s) (h : exec c s = .ok (a, s')) :
    RangesInv s' (⟨c, a⟩ :: evs) := by
  have hch := exec_changes I.sound hc.allocates h
  have hkeep : ∀ {ρ}, ρ ∈ ranges evs → ∃ g r, Backs s' ρ g r := by
    intro ρ hρ
    obtain ⟨g, r, b⟩ := I.backed hρ
    exact ⟨g, b.of_changes hch fun hcl => exec_owner I.sound.region hc.allocates h hcl⟩
  have hstatic : Sound s' ∧ RamOK s' ∧ RamTabled s' ∧ Owned s' :=
    ⟨hch.sound I.sound, I.ram.of_sameShape hch.sameShape, hch.ramTabled I.sound I.tabled,
      hch.owned I.sound I.ram I.tabled I.owned⟩
  -- a call without a range leaves the list as it is
  cases hrange : Event.range ⟨c, a⟩ with
  | none =>
      have hsame : ranges (⟨c, a⟩ :: evs) = ranges evs := by
        simp only [ranges, List.filterMap_cons, hrange]
      refine ⟨hstatic.1, hstatic.2.1, hstatic.2.2.1, hstatic.2.2.2, ?_, ?_⟩
      · rw [hsame]
        exact hkeep
      · rw [hsame]
        exact I.apart
  | some ρ' =>
      have hcons : ranges (⟨c, a⟩ :: evs) = ρ' :: ranges evs := by
        simp only [ranges, List.filterMap_cons, hrange]
      cases c with
      | finishInit => cases hrange
      | createClient owner granted extra init head room room' => cases hrange
      | free id addr bytes => cases hrange
      -- only a range that was granted is new
      | allocateRange id bytes width start room =>
          simp only [Event.range] at hrange
          split at hrange
          next => cases hrange
          next ha =>
            cases hrange
            obtain ⟨cl, g, r, cls, hcl, p, hs, haddr, hlen, hpos, hplace, -⟩ :=
              allocateRange_served I.sound I.ram hc h ha
            refine ⟨hstatic.1, hstatic.2.1, hstatic.2.2.1, hstatic.2.2.2, ?_, ?_⟩
            · rw [hcons]
              intro ρ hρ
              rcases List.mem_cons.mp hρ with rfl | hρ
              · -- the grant this call has just recorded
                obtain ⟨r', hr', heq⟩ := hch.sameShape.symm.get p.region
                obtain ⟨h1, h2, h3, -⟩ := Region.shape_eq heq
                obtain ⟨cl', hcl', howner⟩ :=
                  exec_owner I.sound.region hc.allocates h hcl
                refine ⟨⟨g.region, g.first, g.nFrames, cl.owner⟩, r', ?_, hr',
                  ⟨cl', hcl', howner⟩, ?_, hlen, hpos, ?_⟩
                · rw [hs]
                  exact List.mem_cons_self
                · rw [h1]
                  exact haddr
                · rcases hplace with hreg | hiso
                  · exact .inl (h3.trans hreg)
                  · exact .inr (hiso.of_sameShape hch.sameShape heq.symm)
              · exact hkeep hρ
            · rw [hcons]
              -- it does not meet those of before, which are backed too
              refine List.pairwise_cons.mpr ⟨fun ρ hρ => ?_, I.apart⟩
              obtain ⟨q, r', b⟩ := I.backed hρ
              exact b.apart_picked I.sound I.ram p hplace haddr hlen hpos

/-- The reservations of `create` keep the ramtab in step. -/
theorem reserveEntries_owned {es : List MmapEntry} {s s' : State} (S : Sound s) (R : RamOK s)
    (T : RamTabled s) (O : Owned s) (h : reserveEntries es s = .ok s') :
    RamOK s' ∧ RamTabled s' ∧ Owned s' := by
  induction es generalizing s with
  | nil => cases h; exact ⟨R, T, O⟩
  | cons e es ih =>
      rw [reserveEntries] at h
      split at h
      next =>
        obtain ⟨s₁, hres, h⟩ := bind_eq_ok.mp h
        obtain ⟨owner, g, r, cl, p, rfl, -⟩ := reserveEntry_picked S hres
        have hch : Changes s { s.taken owner g r with clients := cl } := .taken owner cl p
        exact ih (hch.sound S) (R.of_sameShape hch.sameShape) (hch.ramTabled S T)
          (hch.owned S R T O) h
      next => exact ih S R T O h

theorem create_rangesInv {map : List MmapEntry} {ramtab : Ramtab}
    {regionList : Option RegionList} {s : State} (hmap : RamMap map)
    (hpage : ∀ e ∈ map, e.type.isRam = true → e.address % 4096 = 0)
    (hcov : ∀ e ∈ map, e.type.isRam = true → (e.address + e.size) / 4096 ≤ ramtab.size)
    (hcreate : create map ramtab regionList = .ok s) : RangesInv s [] := by
  have hno : Owned (freshState map ramtab regionList) := fun g hg => by cases hg
  obtain ⟨R, T, O⟩ := reserveEntries_owned (freshState_sound map ramtab regionList)
    (freshState_ramOK hmap ramtab regionList) (freshState_ramTabled hmap regionList hpage hcov)
    hno (create_eq hcreate)
  exact ⟨(create_sound hcreate).1, R, T, O, fun hρ => (List.not_mem_nil hρ).elim, .nil⟩

theorem run_rangesInv {s₀ s : State} {evs : List Event} (I : RangesInv s₀ [])
    (hrun : Run (fun s c => c.Served s) s₀ evs s) : RangesInv s evs := by
  induction hrun with
  | nil => exact I
  | step hrun hc hexec ih => exact ih.step hc hexec

/-- **Ranges are reserved and disjoint**: on a memory map with page-aligned,
disjoint RAM within 32 bits that the ramtab covers, in every run of served
calls every address answered stands for a range that is reserved for its
client, and no two of these ranges share a byte. -/
theorem ranges_reserved_along_runs {map : List MmapEntry} {ramtab : Ramtab}
    {regionList : Option RegionList} {s₀ s : State} {evs : List Event} (hmap : RamMap map)
    (hpage : ∀ e ∈ map, e.type.isRam = true → e.address % 4096 = 0)
    (hcov : ∀ e ∈ map, e.type.isRam = true → (e.address + e.size) / 4096 ≤ ramtab.size)
    (hcreate : create map ramtab regionList = .ok s₀)
    (hrun : Run (fun s c => c.Served s) s₀ evs s) :
    (∀ ρ ∈ ranges evs, ∃ c, s.clients[ρ.id]? = some c ∧ Reserved s c.owner ρ) ∧
      (ranges evs).Pairwise Range.Apart := by
  have I := run_rangesInv (create_rangesInv hmap hpage hcov hcreate) hrun
  refine ⟨fun ρ hρ => ?_, I.apart⟩
  obtain ⟨g, r, b⟩ := I.backed hρ
  exact b.reserved I.sound I.tabled I.owned

/-- Two requests of one and a half frames. -/
theorem ranges_reserved_small_run :
    ∃ s evs, Run (fun s c => c.Served s) (created smallMap (emptyRamtab 8)) evs s ∧
      ranges evs = [⟨0, 0x3000, 0x2000⟩, ⟨0, 0, 0x2000⟩] ∧
      ∀ ρ ∈ ranges evs, ∃ c, s.clients[ρ.id]? = some c ∧ Reserved s c.owner ρ := by
  have hcreate := create_created (show
    (create smallMap (emptyRamtab 8) none).toOption.isSome = true by decide +kernel)
  have hserved : ∀ s : State, (Call.allocate 0 0x1800 12 true).Served s := by
    intro s
    refine ⟨?_, fun heven => ?_⟩
    · show roundUp 0x1800 12 < wordSize
      decide
    · cases heven
  have hrun : Run (fun s c => c.Served s) (created smallMap (emptyRamtab 8))
      [⟨.allocate 0 0x1800 12 true, 0x3000⟩, ⟨.allocate 0 0x1800 12 true, 0⟩]
      (((created smallMap (emptyRamtab 8)).after (.allocate 0 0x1800 12 true)).after
        (.allocate 0 0x1800 12 true)) :=
    .step (.step .nil (hserved _) (exec_after (by decide +kernel))) (hserved _)
      (exec_after (by decide +kernel))
  have hmap : RamMap smallMap := ⟨by decide, by decide⟩
  exact ⟨_, _, hrun, by decide, (ranges_reserved_along_runs hmap (by decide) (by decide)
    hcreate hrun).1⟩

/-- Four frames of RAM. -/
def ramMap4 : List MmapEntry := [⟨0, 0x4000, .free⟩]

/-- Two frames at the last one of the region: `0x3000` is the answer, as if the
frame after it had been there too. -/
theorem allocateRange_grants_less :
    RamMap ramMap4 ∧ create ramMap4 (emptyRamtab 4) none = .ok (created ramMap4 (emptyRamtab 4)) ∧
      exec (.allocateRange 0 0x2000 12 0x3000 true) (created ramMap4 (emptyRamtab 4))
        = .ok (0x3000, (created ramMap4 (emptyRamtab 4)).after
            (.allocateRange 0 0x2000 12 0x3000 true)) ∧
      ¬ ∃ owner, Reserved ((created ramMap4 (emptyRamtab 4)).after
        (.allocateRange 0 0x2000 12 0x3000 true)) owner ⟨0, 0x3000, roundUp 0x2000 12⟩ := by
  refine ⟨⟨by decide, by decide⟩, create_created (by decide +kernel),
    exec_after (by decide +kernel), ?_⟩
  rintro ⟨owner, i, r, hr, -, hend, -⟩
  have hall : ∀ r ∈ ((created ramMap4 (emptyRamtab 4)).after
      (.allocateRange 0 0x2000 12 0x3000 true)).regions, r.start + r.bytes = 0x4000 := by
    decide +kernel
  rw [hall r (List.mem_of_getElem? hr)] at hend
  revert hend
  decide

end Metta.FramesMod
