/-
  Metta.BuildBoot.Modules — finding modules in a boot image.

  The kernel walks by the lengths that are stored in the records and compares
  names byte by byte.  On an image that `buildboot` wrote, the walk comes by
  the modules one by one.

    • `findFrom_of_visit` — `find_entry` is a walk and a search in it,
    • `Loaded.visit` — the walk over an image,
    • `image_round_trip` — what goes into an image comes out of it.
-/
import Metta.BuildBoot.Layout

namespace Metta.BuildBoot

open Metta.Machine

namespace Bootimage

/-- `info.generic += info.rec->length`. -/
def next (m : Memory) (a : Nat) : Nat := add32 a (m.load32 (add32 a 4))

/-- The records that the walk by lengths comes by, and where it stops. -/
def walk (img : Bootimage) (m : Memory) (fuel : Nat) : Option (List Nat × Nat) :=
  visit (next m) img.end_ fuel (add32 img.location 8)

/-- `find_entry` is a search among the records of the walk. -/
theorem findFrom_of_visit {img : Bootimage} {m : Memory} {kind fuel a e : Nat} {name : Text}
    {as : List Nat} (h : visit (next m) img.end_ fuel a = some (as, e)) :
    img.findFrom m kind name fuel a = some (as.find? (img.isHit m kind name)) := by
  induction fuel generalizing a as e with
  | zero => cases h
  | succ fuel ih =>
      rw [visit] at h
      rw [findFrom]
      by_cases ha : a < img.end_
      · rw [if_pos ha] at h ⊢
        obtain ⟨⟨as', e'⟩, h', heq⟩ := Option.map_eq_some_iff.mp h
        cases heq
        cases hit : img.isHit m kind name a with
        | true => rw [if_pos rfl, List.find?_cons_of_pos hit]
        | false =>
            rw [if_neg (by decide), List.find?_cons_of_neg (by rw [hit]; decide)]
            exact ih h'
      · rw [if_neg ha] at h ⊢
        cases h
        rfl

/-- What is found is the data of `mod`: in the image, at a multiple of four, with less
than four bytes of padding. -/
def HoldsData (img : Bootimage) (m : Memory) (info : Nat × Nat) (mod : ModuleInfo) : Prop :=
  img.location ≤ info.1 ∧ info.1 + info.2 ≤ img.end_ ∧ (info.1 - img.location) % 4 = 0 ∧
    ∃ pad < 4, info.2 = mod.contents.length + pad ∧
      HasBytes m info.1 (mod.contents ++ List.replicate pad 0)

end Bootimage

section

variable {m : Memory} {img : Bootimage} {mods : List ModuleInfo}

theorem RecordAt.holdsData {a : Nat} {mod : ModuleInfo} (h : RecordAt m img a mod)
    (hend : a + mod.recordSize ≤ img.end_) : img.HoldsData m (img.modinfo m a) mod := by
  have hbehind := h.behind
  have hposition := h.position
  have hstart := mod.dataStart_mod
  rw [ModuleInfo.recordSize] at hend
  rw [h.modinfo]
  refine ⟨?_, ?_, ?_, neededAlign mod.contents.length, neededAlign_lt _, rfl, h.data⟩
  · exact le_trans hbehind (Nat.le_add_right _ _)
  · simp only
    omega
  · simp only
    omega

/-- The record at a stop is the one looked for when its module is. -/
theorem RecordAt.isHit {a : Nat} {mod : ModuleInfo} (h : RecordAt m img a mod) (kind : Nat)
    (name : Text) :
    img.isHit m kind name a = (mod.kind == kind && (mod.kind == 0 || decide (mod.name = name))) := by
  have hname : matchesText m (add32 (m.load32 (add32 a 16)) img.location) name.bytes
      = decide (mod.name = name) := by
    rw [h.nameField, Bool.eq_iff_iff, matchesText_iff h.name, decide_eq_true_iff]
  rw [Bootimage.isHit, h.kind, hname]

/-- **The walk over an image** comes by its modules one by one and stops at its end. -/
theorem Loaded.visit (h : Loaded mods m img) {fuel : Nat} (hfuel : mods.length < fuel) :
    ∃ as, img.walk m fuel = some (as, img.end_) ∧ as.Pairwise (· < ·) ∧
      List.Forall₂ (fun a mod => RecordAt m img a mod ∧ a + mod.recordSize ≤ img.end_) as mods := by
  have hfits := h.fits
  have hlaid : Laid ModuleInfo.recordSize
      (fun a mod => RecordAt m img a mod ∧ a + mod.recordSize ≤ img.end_)
      (img.location + 8) mods img.end_ :=
    h.laid.congr fun b mod _ he hat => ⟨hat, he⟩
  have hle := h.laid.le
  have hnext : ∀ a mod, RecordAt m img a mod ∧ a + mod.recordSize ≤ img.end_ →
      a + mod.recordSize ≤ img.end_ → Bootimage.next m a = a + mod.recordSize := by
    intro a mod hat _
    rw [Bootimage.next, hat.1.length, add32_eq hat.1.fits]
  obtain ⟨as, h1, h2, h3, -⟩ := visit_spec ModuleInfo.recordSize_pos hnext hlaid hfuel
  refine ⟨as, ?_, h3, h2⟩
  rw [Bootimage.walk, add32_eq (by omega)]
  exact h1

theorem kind_eq_two {mod : ModuleInfo} (h : mod.name ≠ rootDomain) : mod.kind = 2 := if_neg h

theorem kind_ne_two {mod : ModuleInfo} (h : mod.name = rootDomain) : mod.kind ≠ 2 := by
  rw [ModuleInfo.kind, if_pos h]
  decide

/-- What `find_entry` finds. -/
theorem Loaded.findEntry (h : Loaded mods m img) {fuel : Nat} (hfuel : mods.length < fuel)
    (kind : Nat) (name : Text) :
    (img.findEntry m kind name fuel = some none ∧
      mods.find? (fun mod => mod.kind == kind && (mod.kind == 0 || decide (mod.name = name))) = none)
    ∨ ∃ a mod, img.findEntry m kind name fuel = some (some a) ∧
      mods.find? (fun mod => mod.kind == kind && (mod.kind == 0 || decide (mod.name = name)))
        = some mod ∧ RecordAt m img a mod ∧ a + mod.recordSize ≤ img.end_ := by
  obtain ⟨as, hwalk, -, has⟩ := h.visit hfuel
  have hfind : img.findEntry m kind name fuel = some (as.find? (img.isHit m kind name)) :=
    Bootimage.findFrom_of_visit hwalk
  rcases find_of_forall₂ has (fun a mod hat => hat.1.isHit kind name) with
    ⟨h1, h2⟩ | ⟨a, mod, h1, h2, h3⟩
  · exact .inl ⟨by rw [hfind, h1], h2⟩
  · exact .inr ⟨a, mod, by rw [hfind, h1], h2, h3⟩

/-- **The round trip for modules**: the first module of a name is found with its
contents, a name that no module has is not found, and the walk by lengths comes by every
module once and stops at the end of the image. -/
theorem image_round_trip (h : Loaded mods m img) (fuel : Nat) (hfuel : mods.length < fuel) :
    (∀ n mod, n ≠ rootDomain → mods.find? (fun mod => decide (mod.name = n)) = some mod →
      ∃ info, img.findModule m n fuel = some info ∧ img.HoldsData m info mod) ∧
    (∀ n, (∀ mod ∈ mods, mod.name ≠ n) → img.findModule m n fuel = some (0, 0)) ∧
    ∃ as, img.walk m fuel = some (as, img.end_) ∧ as.Pairwise (· < ·) ∧
      List.Forall₂ (fun a mod => HasBytes m (add32 (m.load32 (add32 a 16)) img.location)
        mod.name.terminated ∧ img.HoldsData m (img.modinfo m a) mod) as mods := by
  refine ⟨fun n mod hn hfirst => ?_, fun n hno => ?_, ?_⟩
  · -- among the modules that are not a root domain the kernel looks at the name only
    have hsame : ∀ mod : ModuleInfo, (mod.kind == 2 && (mod.kind == 0 || decide (mod.name = n)))
        = decide (mod.name = n) := by
      intro mod
      by_cases hname : mod.name = n
      · simp [kind_eq_two (hname ▸ hn : mod.name ≠ rootDomain), hname]
      · by_cases hroot : mod.name = rootDomain
        · simp [kind_ne_two hroot, hname]
        · simp [kind_eq_two hroot, hname]
    rcases h.findEntry hfuel 2 n with ⟨-, hnone⟩ | ⟨a, mod', hentry, hsome, hat, hend⟩
    · simp only [hsame, hfirst] at hnone
      cases hnone
    · simp only [hsame, hfirst] at hsome
      cases hsome
      refine ⟨_, ?_, hat.holdsData hend⟩
      rw [Bootimage.findModule, hentry]
      rfl
  · rcases h.findEntry hfuel 2 n with ⟨hentry, -⟩ | ⟨a, mod, -, hsome, -⟩
    · rw [Bootimage.findModule, hentry]
      rfl
    · have hmem := List.mem_of_find?_eq_some hsome
      have hp := List.find?_some hsome
      have hne := hno mod hmem
      by_cases hroot : mod.name = rootDomain
      · simp [kind_ne_two hroot] at hp
      · simp [kind_eq_two hroot, hne] at hp
  · obtain ⟨as, hwalk, hsorted, has⟩ := h.visit hfuel
    refine ⟨as, hwalk, hsorted, has.imp fun a mod hat => ⟨?_, hat.1.holdsData hat.2⟩⟩
    rw [hat.1.nameField]
    exact hat.1.name

end

theorem noNul_k : ∀ b ∈ ([107] : List UInt8), b ≠ 0 := noNul_of_all rfl

theorem noNul_vv : ∀ b ∈ ([118, 118] : List UInt8), b ≠ 0 := noNul_of_all rfl

theorem noNul_abc : ∀ b ∈ ([97, 98, 99] : List UInt8), b ≠ 0 := noNul_of_all rfl

theorem noNul_a : ∀ b ∈ ([97] : List UInt8), b ≠ 0 := noNul_of_all rfl

/-- A root domain with a line, a module with a name of three bytes and one without
contents. -/
def sampleModules : List ModuleInfo :=
  [⟨rootDomain, [1, 2, 3], [(⟨[107], noNul_k⟩, ⟨[118, 118], noNul_vv⟩)]⟩,
    ⟨⟨[97, 98, 99], noNul_abc⟩, [5, 6, 7, 8, 9], []⟩, ⟨⟨[97], noNul_a⟩, [], []⟩]

theorem image_round_trip_sample :
    4096 + (buildboot sampleModules).length < wordSize ∧
    (Bootimage.mk 4096 (4096 + (buildboot sampleModules).length)).findModule
      (imageAt 4096 sampleModules) ⟨[97, 98, 99], noNul_of_all rfl⟩ 4 = some (4200, 8) ∧
    (Bootimage.mk 4096 (4096 + (buildboot sampleModules).length)).HoldsData
      (imageAt 4096 sampleModules) (4200, 8) ⟨⟨[97, 98, 99], noNul_of_all rfl⟩, [5, 6, 7, 8, 9], []⟩ := by
  have hfits : 4096 + (buildboot sampleModules).length < wordSize := by decide +kernel
  obtain ⟨hfound, -⟩ := image_round_trip (loaded_imageAt hfits) 4 (by decide)
  obtain ⟨info, hinfo, hholds⟩ := hfound ⟨[97, 98, 99], noNul_of_all rfl⟩
    ⟨⟨[97, 98, 99], noNul_of_all rfl⟩, [5, 6, 7, 8, 9], []⟩ (by decide) rfl
  have hvalue : (Bootimage.mk 4096 (4096 + (buildboot sampleModules).length)).findModule
      (imageAt 4096 sampleModules) ⟨[97, 98, 99], noNul_of_all rfl⟩ 4 = some (4200, 8) := by
    decide +kernel
  rw [hvalue] at hinfo
  cases hinfo
  exact ⟨hfits, hvalue, hholds⟩

end Metta.BuildBoot
