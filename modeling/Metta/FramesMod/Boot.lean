/-
  Metta.FramesMod.Boot — the areas that are in use at boot.

  `bootinfo_t::use_memory` records an area in use as an entry on top of a
  free one.  `create` reserves the frames of such an entry when its type is
  `non_free`; an entry of any other type becomes a region of its own, and
  the RAM region under it keeps all its frames.  So the areas in use are
  safe from allocation when `non_free` entries cover them (`Covered`).

    • `create_bootCovered` — `create` reserves what `non_free` entries cover,
    • `boot_reservations_respected` — no allocation of any run returns a
      byte of these areas.
-/
import Metta.FramesMod.Ranges

namespace Metta.FramesMod

open Metta.Machine

/-! ## §1. Boot memory maps. -/

/-- The end of the last frame of an entry. -/
def MmapEntry.frameEnd (e : MmapEntry) : Nat := e.address + (e.size + 4095) / 4096 * 4096

/-- **A boot memory map**: disjoint free entries within 32 bits, and entries
of other types on top of them, as `use_memory` records them. -/
structure BootMap (base overlay : List MmapEntry) : Prop where
  free : ∀ e ∈ base, e.type = .free
  below : ∀ e ∈ base, e.address + e.size < wordSize
  apart : base.Pairwise MmapEntry.Apart
  overlaid : ∀ e ∈ overlay, e.type.isRam = false ∧
    ∃ e₀ ∈ base, e₀.address ≤ e.address ∧ e.address + e.size ≤ e₀.address + e₀.size

/-- **The areas in use are covered by `non_free` entries**, which start at
pages and share no frame. -/
structure Covered (overlay : List MmapEntry) : Prop where
  page : ∀ f ∈ overlay, f.type = .nonFree → f.address % 4096 = 0
  apart : overlay.Pairwise fun f f' => f.type = .nonFree → f'.type = .nonFree →
    f.frameEnd ≤ f'.address ∨ f'.frameEnd ≤ f.address
  byNonFree : ∀ e ∈ overlay, ∀ b, e.address ≤ b → b < e.address + e.size →
    ∃ f ∈ overlay, f.type = .nonFree ∧ f.address ≤ b ∧ b < f.address + f.size

variable {base overlay : List MmapEntry} {s : State}

theorem BootMap.ramMap (h : BootMap base overlay) : RamMap (base ++ overlay) := by
  constructor
  · intro e he hram
    rcases List.mem_append.mp he with he | he
    · exact h.below e he
    · rw [(h.overlaid e he).1] at hram
      cases hram
  · refine List.pairwise_append.mpr ⟨h.apart.imp fun hap _ _ => hap, ?_, ?_⟩
    · refine (List.pairwise_of_forall_mem_list fun e he e' he' hram => ?_)
      rw [(h.overlaid e he).1] at hram
      cases hram
    · intro e _ e' he' _ hram
      rw [(h.overlaid e' he').1] at hram
      cases hram

/-- The regions of a state are those of a boot memory map: the RAM regions are
those of the free entries, and come first. -/
structure BootState (base : List MmapEntry) (s : State) : Prop where
  entry : ∀ {i : Nat} {r : Region}, s.regions[i]? = some r → r.attrs = .regular →
    ∃ e, base[i]? = some e ∧ r.start = e.address ∧ r.nLogicalFrames = e.size / 4096
  first : ∀ {i : Nat} {r : Region}, s.regions[i]? = some r → i < base.length →
    r.attrs = .regular

theorem freshState_bootState (h : BootMap base overlay) (ramtab : Ramtab)
    (regionList : Option RegionList) :
    BootState base (freshState (base ++ overlay) ramtab regionList) := by
  have hbase : base.filter (fun e => e.type ≠ .nonFree) = base := by
    refine List.filter_eq_self.mpr fun e he => ?_
    simp [h.free e he]
  have hregions : (freshState (base ++ overlay) ramtab regionList).regions
      = base.map mkRegion ++ (overlay.filter fun e => e.type ≠ .nonFree).map mkRegion := by
    simp only [freshState]
    rw [List.filter_append, hbase, List.map_append]
  constructor
  · intro i r hr hreg
    rw [hregions] at hr
    by_cases hi : i < base.length
    · rw [List.getElem?_append_left (by rwa [List.length_map]), List.getElem?_map,
        List.getElem?_eq_getElem hi] at hr
      have hr' := (Option.some.inj hr).symm
      have hmem : base[i] ∈ base := List.getElem_mem hi
      obtain ⟨hs, hn⟩ := mkRegion_below (h.below _ hmem)
      exact ⟨base[i], List.getElem?_eq_getElem hi, by rw [hr', hs], by rw [hr', hn]⟩
    · -- the other regions are not RAM
      rw [List.getElem?_append_right (by rw [List.length_map]; omega)] at hr
      obtain ⟨e, he, rfl⟩ := List.mem_map.mp (List.mem_of_getElem? hr)
      have hram := mkRegion_regular hreg
      rw [(h.overlaid e (List.mem_filter.mp he).1).1] at hram
      cases hram
  · intro i r hr hi
    rw [hregions, List.getElem?_append_left (by rwa [List.length_map]), List.getElem?_map,
      List.getElem?_eq_getElem hi] at hr
    rw [← Option.some.inj hr]
    simp [mkRegion, h.free _ (List.getElem_mem hi), EntryType.isRam]

theorem BootState.of_sameShape {s s' : State} (B : BootState base s) (hs : SameShape s s') :
    BootState base s' := by
  constructor
  · intro i r' hr' hreg
    obtain ⟨r, hr, heq⟩ := hs.get hr'
    obtain ⟨h1, h2, h3, -⟩ := Region.shape_eq heq
    rw [← h1, ← h2]
    exact B.entry hr (h3.trans hreg)
  · intro i r' hr' hi
    obtain ⟨r, hr, heq⟩ := hs.get hr'
    rw [← (Region.shape_eq heq).2.2.1]
    exact B.first hr hi

/-! ## §2. Which region an entry in use falls into. -/

/-- Two free entries that share a byte are one. -/
theorem BootMap.base_unique (h : BootMap base overlay) {i j : Nat} {e e' : MmapEntry}
    (he : base[i]? = some e) (he' : base[j]? = some e') {b : Nat}
    (hb : e.address ≤ b ∧ b < e.address + e.size)
    (hb' : e'.address ≤ b ∧ b < e'.address + e'.size) : i = j := by
  obtain ⟨hi, rfl⟩ := List.getElem?_eq_some_iff.mp he
  obtain ⟨hj, rfl⟩ := List.getElem?_eq_some_iff.mp he'
  rcases lt_trichotomy i j with hlt | heq | hlt
  · have := List.pairwise_iff_getElem.mp h.apart i j hi hj hlt
    simp only [MmapEntry.Apart] at this
    omega
  · exact heq
  · have := List.pairwise_iff_getElem.mp h.apart j i hj hi hlt
    simp only [MmapEntry.Apart] at this
    omega

/-- `get_region` finds, for an entry in use that reaches into a RAM region,
that region. -/
theorem BootMap.getRegion_eq (h : BootMap base overlay) {s : State} (S : Sound s)
    (R : RamOK s) (B : BootState base s) {f : MmapEntry} (hf : f ∈ overlay) {i : Nat}
    {r : Region} (hr : s.regions[i]? = some r) (hreg : r.attrs = .regular) {b : Nat}
    (hb : f.address ≤ b ∧ b < f.address + f.size)
    (hbr : r.start ≤ b ∧ b < r.start + r.bytes) {k : Nat} {q : Region}
    (hget : getRegion f.address s.regions 0 = some (k, q)) :
    k = i ∧ q = r ∧ r.start ≤ f.address := by
  obtain ⟨e, he, hstart, hn⟩ := B.entry hr hreg
  obtain ⟨-, e₀, he₀, hle, hle'⟩ := h.overlaid f hf
  obtain ⟨i₀, hi₀⟩ := List.mem_iff_getElem?.mp he₀
  have hmem := List.mem_of_getElem? hr
  simp only [Region.bytes] at hbr
  -- the free entry under `f` is the entry of `r`
  have hii : i = i₀ := h.base_unique he hi₀ (b := b) ⟨by omega, by omega⟩ ⟨by omega, by omega⟩
  subst hii
  rw [he] at hi₀
  cases hi₀
  have hstart' : r.start ≤ f.address := by omega
  have hcont : r.contains f.address = true := by
    rw [(S.region r hmem).contains_iff, add32_eq (R.below hmem hreg)]
    simp only [Region.bytes]
    omega
  obtain ⟨-, hq, hqc⟩ := getRegion_spec hget
  rw [Nat.sub_zero] at hq
  have hqmem := List.mem_of_getElem? hq
  -- no region before it holds the address of `f`
  have hki : k ≤ i := by
    by_contra hlt
    have := getRegion_first hget (j := i) (by omega) hr
    rw [hcont] at this
    cases this
  have hkb : k < base.length :=
    lt_of_le_of_lt hki (List.getElem?_eq_some_iff.mp he).1
  have hkeq : k = i := by
    by_contra hne
    have hap := R.apart hq hr hne (B.first hq hkb) hreg
    have hqin := (S.region q hqmem).of_contains hqc
    have hrin := (S.region r hmem).of_contains hcont
    simp only [Region.Apart] at hap
    omega
  subst hkeq
  rw [hr] at hq
  exact ⟨rfl, (Option.some.inj hq).symm, hstart'⟩

/-! ## §3. The reservations of `create`. -/

/-- The bytes of `e` in page-aligned RAM regions belong to busy frames. -/
def Protects (s : State) (e : MmapEntry) : Prop :=
  ∀ (i : Nat) (r : Region), s.regions[i]? = some r → r.attrs = .regular →
    r.start % 4096 = 0 → ∀ b, e.address ≤ b → b < e.address + e.size →
      r.start ≤ b → b < r.start + r.bytes → busy s.grants i ((b - r.start) / 4096)

/-- Every frame of page-aligned RAM that was given out is a frame of an entry
of `done`. -/
def GrantsFrom (done : List MmapEntry) (s : State) : Prop :=
  ∀ (i : Nat) (r : Region), s.regions[i]? = some r → r.attrs = .regular →
    r.start % 4096 = 0 → ∀ j, busy s.grants i j →
      ∃ f ∈ done, f.address ≤ r.start + j * 4096 ∧ r.start + j * 4096 < f.frameEnd

theorem Protects.of_changes {s s' : State} {e : MmapEntry} (P : Protects s e)
    (h : Changes s s') : Protects s' e := by
  intro i r' hr' hreg hpage b hb hb' hbr hbr'
  obtain ⟨r, hr, heq⟩ := h.sameShape.get hr'
  obtain ⟨h1, h2, h3, -⟩ := Region.shape_eq heq
  simp only [Region.bytes] at hbr'
  rw [← h1] at hpage hbr hbr' ⊢
  rw [← h2] at hbr'
  obtain ⟨g, hg, hcase⟩ := P i r hr (h3.trans hreg) hpage b hb hb' hbr hbr'
  exact ⟨g, h.grants hg, hcase⟩

/-- The size of an entry within 32 bits, in whole frames. -/
theorem sizeInWholeFrames_eq {size : Nat} (h : size < wordSize) :
    sizeInWholeFrames size frameWidth % wordSize = (size + 4095) / 4096 := by
  simp only [sizeInWholeFrames, frameWidth, wordSize] at *
  omega

/-- **One reservation**: a `non_free` entry that shares no frame with those
before it gets all its frames. -/
theorem reserveEntry_protects (h : BootMap base overlay) {s s' : State} (S : Sound s)
    (R : RamOK s) (B : BootState base s) {done : List MmapEntry} (G : GrantsFrom done s)
    {f : MmapEntry} (hf : f ∈ overlay) (hpage : f.address % 4096 = 0)
    (hapart : ∀ f' ∈ done, f'.frameEnd ≤ f.address ∨ f.frameEnd ≤ f'.address)
    (hres : reserveEntry f s = .ok s') :
    Changes s s' ∧ GrantsFrom (f :: done) s' ∧ Protects s' f := by
  obtain ⟨owner, g, q, cl, p, rfl, hget, hfirst, hmin⟩ := reserveEntry_picked S hres
  obtain ⟨-, e₀, he₀, hle, hle'⟩ := h.overlaid f hf
  have hbelow := h.below e₀ he₀
  have hfa : f.address % wordSize = f.address := Nat.mod_eq_of_lt (by omega)
  rw [hfa] at hget hfirst
  rw [sizeInWholeFrames_eq (by omega)] at hmin
  have hch : Changes s { s.taken owner g q with clients := cl } := .taken owner cl p
  obtain ⟨-, -, hqc⟩ := getRegion_spec hget
  have hq := S.region q (List.mem_of_getElem? p.region)
  -- the first frame taken is the one at the entry's address
  have hframe : q.start % 4096 = 0 → q.start + g.first * 4096 = f.address := by
    intro hqpage
    have heq := (hq.logFrame_eq hqc hpage hqpage).1
    have := (hq.of_contains hqc).1
    rw [hfirst, heq]
    omega
  refine ⟨hch, ?_, ?_⟩
  · intro i r' hr' hreg hrpage j hbusy
    obtain ⟨r, hr, heq⟩ := hch.sameShape.get hr'
    obtain ⟨h1, h2, h3, -⟩ := Region.shape_eq heq
    rw [← h1] at hrpage ⊢
    rcases busy_cons.mp hbusy with hold | ⟨rfl, hj, hj'⟩
    · obtain ⟨f', hf', hlo, hhi⟩ := G i r hr (h3.trans hreg) hrpage j hold
      exact ⟨f', List.mem_cons_of_mem _ hf', hlo, hhi⟩
    · have hrq : r = q := Option.some.inj (hr.symm.trans p.region)
      subst hrq
      have := hframe hrpage
      simp only at hj hj'
      refine ⟨f, List.mem_cons_self, by omega, ?_⟩
      simp only [MmapEntry.frameEnd]
      omega
  · intro i r' hr' hreg hrpage b hb hb' hbr hbr'
    obtain ⟨r, hr, heq⟩ := hch.sameShape.get hr'
    obtain ⟨h1, h2, h3, -⟩ := Region.shape_eq heq
    have hbytes : r'.bytes = r.bytes := by simp only [Region.bytes, h2]
    rw [hbytes] at hbr'
    rw [← h1] at hrpage hbr hbr' ⊢
    obtain ⟨hk, hqr, hstart⟩ :=
      h.getRegion_eq S R B hf hr (h3.trans hreg) ⟨hb, hb'⟩ ⟨hbr, hbr'⟩ hget
    subst hqr
    have hfr := hframe hrpage
    refine busy_cons.mpr (.inr ⟨hk, ?_, ?_⟩)
    · show g.first ≤ (b - q.start) / 4096
      omega
    · show (b - q.start) / 4096 < g.first + g.nFrames
      -- if the grant were shorter, a frame of `f` would have been busy before
      by_contra hshort
      have hjb : (b - q.start) / 4096 < q.nLogicalFrames := by
        simp only [Region.bytes] at hbr'
        omega
      have hcount := S.counts p.region g.first p.first
      have hlt : q.frames g.first ≤ (b - q.start) / 4096 - g.first := by omega
      have hstop := hcount.stop (by omega)
      obtain ⟨f', hf', hlo, hhi⟩ := G g.region q p.region (h3.trans hreg) hrpage _ hstop
      have := hapart f' hf'
      simp only [MmapEntry.frameEnd] at this hhi
      omega

/-- **`create` reserves every `non_free` entry.** -/
theorem reserveEntries_protects (h : BootMap base overlay) {es : List MmapEntry} :
    ∀ {s s' : State} {done : List MmapEntry}, Sound s → RamOK s → BootState base s →
      GrantsFrom done s → (∀ f ∈ done, Protects s f) → (∀ e ∈ es, e ∈ overlay) →
      (∀ f ∈ es, f.type = .nonFree → f.address % 4096 = 0) →
      (es.Pairwise fun f f' => f.type = .nonFree → f'.type = .nonFree →
        f.frameEnd ≤ f'.address ∨ f'.frameEnd ≤ f.address) →
      (∀ f ∈ es, f.type = .nonFree → ∀ f' ∈ done,
        f'.frameEnd ≤ f.address ∨ f.frameEnd ≤ f'.address) →
      reserveEntries es s = .ok s' →
      (∀ f ∈ done, Protects s' f) ∧ ∀ f ∈ es, f.type = .nonFree → Protects s' f := by
  induction es with
  | nil =>
      intro s s' done _ _ _ _ P _ _ _ _ hres
      cases hres
      exact ⟨P, fun f hf => (List.not_mem_nil hf).elim⟩
  | cons e es ih =>
      intro s s' done S R B G P hov hpage hpair hdone hres
      have hov' : ∀ x ∈ es, x ∈ overlay := fun x hx => hov x (List.mem_cons_of_mem _ hx)
      have hpage' : ∀ f ∈ es, f.type = .nonFree → f.address % 4096 = 0 :=
        fun f hf => hpage f (List.mem_cons_of_mem _ hf)
      obtain ⟨hhead, htail⟩ := List.pairwise_cons.mp hpair
      -- an entry that is not free is reserved, and the rest keeps it
      rw [reserveEntries] at hres
      split at hres
      next htype =>
        obtain ⟨s₁, hone, hrest⟩ := bind_eq_ok.mp hres
        obtain ⟨hch, G₁, P₁⟩ := reserveEntry_protects h S R B G (hov e List.mem_cons_self)
          (hpage e List.mem_cons_self htype) (hdone e List.mem_cons_self htype) hone
        have Pdone : ∀ f ∈ e :: done, Protects s₁ f := by
          intro f hf
          rcases List.mem_cons.mp hf with rfl | hf
          · exact P₁
          · exact (P f hf).of_changes hch
        obtain ⟨hd, he⟩ := ih (hch.sound S) (R.of_sameShape hch.sameShape)
          (B.of_sameShape hch.sameShape) G₁ Pdone hov' hpage' htail (fun f hf hft f' hf' => by
            rcases List.mem_cons.mp hf' with rfl | hf'
            · exact hhead f hf htype hft
            · exact hdone f (List.mem_cons_of_mem _ hf) hft f' hf') hrest
        refine ⟨fun f hf => hd f (List.mem_cons_of_mem _ hf), fun f hf hft => ?_⟩
        rcases List.mem_cons.mp hf with rfl | hf
        · exact hd f List.mem_cons_self
        · exact he f hf hft
      -- an entry that is free is passed by
      next htype =>
        obtain ⟨hd, he⟩ := ih S R B G P hov' hpage' htail
          (fun f hf => hdone f (List.mem_cons_of_mem _ hf)) hres
        refine ⟨hd, fun f hf hft => ?_⟩
        rcases List.mem_cons.mp hf with rfl | hf
        · exact absurd hft htype
        · exact he f hf hft

/-- The free entries take no part in the second pass. -/
theorem reserveEntries_append {free es : List MmapEntry} (h : ∀ e ∈ free, e.type = .free)
    (s : State) : reserveEntries (free ++ es) s = reserveEntries es s := by
  induction free with
  | nil => rfl
  | cons e free ih =>
      rw [List.cons_append, reserveEntries, if_neg (by rw [h e List.mem_cons_self]; decide)]
      exact ih fun x hx => h x (List.mem_cons_of_mem _ hx)

/-- What `create` leaves: RAM regions of the free entries, with the areas in
use protected. -/
structure BootInv (base overlay : List MmapEntry) (s : State) : Prop where
  sound : Sound s
  ram : RamOK s
  protects : ∀ e ∈ overlay, Protects s e

theorem create_bootInv (h : BootMap base overlay) (hcov : Covered overlay) {ramtab : Ramtab}
    {regionList : Option RegionList} {s : State}
    (hcreate : create (base ++ overlay) ramtab regionList = .ok s) :
    BootInv base overlay s := by
  obtain ⟨S, hshape⟩ := create_sound hcreate
  have hres := create_eq hcreate
  rw [reserveEntries_append h.free] at hres
  have hnone : GrantsFrom [] (freshState (base ++ overlay) ramtab regionList) := by
    rintro i r - - - j ⟨g, hg, -⟩
    cases hg
  have hprot := (reserveEntries_protects h (freshState_sound _ ramtab regionList)
    (freshState_ramOK h.ramMap ramtab regionList) (freshState_bootState h ramtab regionList)
    hnone (fun f hf => (List.not_mem_nil hf).elim) (fun e he => he) hcov.page hcov.apart
    (fun f _ _ f' hf' => (List.not_mem_nil hf').elim) hres).2
  refine ⟨S, (freshState_ramOK h.ramMap ramtab regionList).of_sameShape hshape, ?_⟩
  intro e he i r hr hreg hpage b hb hb' hbr hbr'
  obtain ⟨f, hf, hft, hlo, hhi⟩ := hcov.byNonFree e he b hb hb'
  exact hprot f hf hft i r hr hreg hpage b hlo hhi hbr hbr'

/-! ## §4. Allocation never meets an area in use. -/

/-- Allocation at any address, of byte counts that survive rounding. -/
def Call.AllocatesAny : Call → Prop
  | .allocateRange _ bytes width start _ => start = noAddress ∧ roundUp bytes width < wordSize
  | .free .. => False
  | _ => True

theorem Call.AllocatesAny.served {c : Call} (h : c.AllocatesAny) (s : State) : c.Served s := by
  cases c with
  | allocateRange id bytes width start room =>
      obtain ⟨rfl, hround⟩ := h
      exact ⟨hround, fun heven => by cases heven⟩
  | free id addr bytes => exact h.elim
  | finishInit => trivial
  | createClient owner granted extra init head room room' => trivial

theorem BootInv.step (I : BootInv base overlay s) {s' : State} {c : Call} {a : Nat}
    (hc : c.AllocatesAny) (h : exec c s = .ok (a, s')) : BootInv base overlay s' := by
  have hch := exec_changes I.sound (hc.served s).allocates h
  exact ⟨hch.sound I.sound, I.ram.of_sameShape hch.sameShape,
    fun e he => (I.protects e he).of_changes hch⟩

/-- An allocation answers with bytes of no area in use. -/
theorem BootInv.range_free (I : BootInv base overlay s) {s' : State} {c : Call} {a : Nat}
    (hc : c.AllocatesAny) (h : exec c s = .ok (a, s')) {ρ : Range}
    (hρ : Event.range ⟨c, a⟩ = some ρ) :
    ∀ e ∈ overlay, ∀ b, e.address ≤ b → b < e.address + e.size →
      ¬ (ρ.addr ≤ b ∧ b < ρ.addr + ρ.len) := by
  cases c with
  | finishInit => cases hρ
  | createClient owner granted extra init head room room' => cases hρ
  | free id addr bytes => cases hρ
  | allocateRange id bytes width start room =>
      simp only [Event.range] at hρ
      split at hρ
      next => cases hρ
      next ha =>
        cases hρ
        obtain ⟨cl, g, r, cls, -, p, -, haddr, hlen, -, -, hany⟩ :=
          allocateRange_served I.sound I.ram (hc.served s) h ha
        obtain ⟨rfl, -⟩ := hc
        obtain ⟨hreg, hpage⟩ := hany rfl
        have hin := p.inside I.sound
        rintro e he b hb hb' ⟨hlo, hhi⟩
        simp only at hlo hhi
        rw [haddr] at hlo hhi
        rw [hlen] at hhi
        have hbusy := I.protects e he g.region r p.region hreg hpage b hb hb' (by omega) (by
          simp only [Region.bytes]
          omega)
        exact p.not_busy I.sound (by omega) (by omega) hbusy

/-- **Areas in use at boot are never handed out**: on every boot memory map
whose areas in use are covered by `non_free` entries, no allocation of any
run answers with a range that has a byte of one of them. -/
theorem boot_reservations_respected {base overlay : List MmapEntry} {ramtab : Ramtab}
    {regionList : Option RegionList} {s₀ s : State} {evs : List Event}
    (hboot : BootMap base overlay) (hcov : Covered overlay)
    (hcreate : create (base ++ overlay) ramtab regionList = .ok s₀)
    (hrun : Run (fun _ c => c.AllocatesAny) s₀ evs s) :
    ∀ ρ ∈ ranges evs, ∀ e ∈ overlay, ∀ b, e.address ≤ b → b < e.address + e.size →
      ¬ (ρ.addr ≤ b ∧ b < ρ.addr + ρ.len) := by
  have hall : BootInv base overlay s ∧ ∀ ρ ∈ ranges evs, ∀ e ∈ overlay, ∀ b,
      e.address ≤ b → b < e.address + e.size → ¬ (ρ.addr ≤ b ∧ b < ρ.addr + ρ.len) := by
    induction hrun with
    | nil => exact ⟨create_bootInv hboot hcov hcreate, fun ρ hρ => (List.not_mem_nil hρ).elim⟩
    | step hrun hc hexec ih =>
        refine ⟨ih.1.step hc hexec, fun ρ hρ => ?_⟩
        rcases List.mem_filterMap.mp hρ with ⟨ev, hev, hrange⟩
        rcases List.mem_cons.mp hev with rfl | hev
        · exact ih.1.range_free hc hexec hrange
        · exact ih.2 ρ (List.mem_filterMap.mpr ⟨ev, hev, hrange⟩)
  exact hall.2

/-- A frame in use in the middle of four, covered by a `non_free` entry. -/
theorem boot_reservations_small_run :
    ∃ s, Run (fun _ c => c.AllocatesAny)
        (created [⟨0, 0x4000, .free⟩, ⟨0x1000, 0x1000, .loadedModule⟩,
          ⟨0x1000, 0x1000, .nonFree⟩] (emptyRamtab 4))
        [⟨.allocate 0 0x2000 12 true, 0x2000⟩] s ∧
      ¬ ∃ b, (0x1000 ≤ b ∧ b < 0x2000) ∧ 0x2000 ≤ b ∧ b < 0x2000 + roundUp 0x2000 12 := by
  have hboot : BootMap [⟨0, 0x4000, .free⟩]
      [⟨0x1000, 0x1000, .loadedModule⟩, ⟨0x1000, 0x1000, .nonFree⟩] :=
    ⟨by decide, by decide, by decide, by decide⟩
  have hcov : Covered [⟨0x1000, 0x1000, .loadedModule⟩, ⟨0x1000, 0x1000, .nonFree⟩] := by
    refine ⟨by decide, by simp, fun e he b hb hb' => ⟨⟨0x1000, 0x1000, .nonFree⟩, by simp, rfl, ?_⟩⟩
    simp only [List.mem_cons, List.not_mem_nil, or_false] at he
    rcases he with rfl | rfl <;> exact ⟨hb, hb'⟩
  have hcreate := create_created (show (create [⟨0, 0x4000, .free⟩,
    ⟨0x1000, 0x1000, .loadedModule⟩, ⟨0x1000, 0x1000, .nonFree⟩] (emptyRamtab 4)
    none).toOption.isSome = true by decide +kernel)
  have hrun : Run (fun _ c => c.AllocatesAny)
      (created [⟨0, 0x4000, .free⟩, ⟨0x1000, 0x1000, .loadedModule⟩,
        ⟨0x1000, 0x1000, .nonFree⟩] (emptyRamtab 4))
      [⟨.allocate 0 0x2000 12 true, 0x2000⟩] _ :=
    .step .nil ⟨rfl, by decide⟩ (exec_after (by decide +kernel))
  refine ⟨_, hrun, ?_⟩
  rintro ⟨b, hb, hlo, hhi⟩
  exact boot_reservations_respected hboot hcov hcreate hrun ⟨0, 0x2000, roundUp 0x2000 12⟩
    (by decide) ⟨0x1000, 0x1000, .nonFree⟩ (by simp) b hb.1 hb.2 ⟨hlo, hhi⟩

/-- A loaded module in the middle of four frames: `create` leaves its frame
free, and the first request for four frames gets it. -/
theorem loaded_module_handed_out :
    BootMap [⟨0, 0x4000, .free⟩] [⟨0x1000, 0x1000, .loadedModule⟩] ∧
      ∃ s₀ s₁, create ([⟨0, 0x4000, .free⟩] ++ [⟨0x1000, 0x1000, .loadedModule⟩])
          (emptyRamtab 4) none = .ok s₀ ∧
        exec (.allocate 0 0x4000 12 true) s₀ = .ok (0, s₁) ∧
        0 ≤ 0x1000 ∧ 0x1000 + 0x1000 ≤ 0 + roundUp 0x4000 12 := by
  refine ⟨⟨by decide, by decide, by decide, by decide⟩, _, _,
    create_created (by decide +kernel), exec_after (by decide +kernel), by decide, by decide⟩

end Metta.FramesMod
