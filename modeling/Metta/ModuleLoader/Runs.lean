/-
  Metta.ModuleLoader.Runs — modules loaded one after the other.

  A call that finds the module loaded changes nothing; a call that loads it
  puts it behind all the others.

    • `loadModule_cases` — what a call has done,
    • `Run` — calls one after the other,
    • `module_layout` — where everything is after a run,
    • `descriptor_outside` — a module with no sections that get memory and no
      tables, loaded at an address that is not on a page.
-/
import Metta.ModuleLoader.Layout

namespace Metta.ModuleLoader

open Metta.Machine

/-- What a call has loaded. -/
def Loaded.installed (r : Loaded) : List Installed :=
  match r.descriptor with
  | none => []
  | some d => [⟨r.module, d, r.loader.lastAvailableAddress⟩]

/-- A call leaves the loader as it is, or it installs the module. -/
theorem loadModule_cases {s : Loader} {name : Text} {module : ElfParser}
    {closureName : Option Text} {fuel : Nat} {r : Loaded}
    (h : s.loadModule name module closureName fuel = .ok r) :
    (r.descriptor = none ∧ r.loader = s) ∨
    ∃ d, r.descriptor = some d ∧ s.install name module = .ok (r.loader, r.module, d) := by
  rw [Loader.loadModule] at h
  obtain ⟨found, -, h⟩ := bind_eq_ok.mp h
  cases found with
  | some a =>
      cases closureName with
      | none => cases h
      | some closure =>
          obtain ⟨symbol, -, rfl⟩ := map_eq_ok.mp h
          exact .inl ⟨rfl, rfl⟩
  | none =>
      obtain ⟨⟨s', module', d⟩, hinst, h⟩ := bind_eq_ok.mp h
      cases closureName with
      | none =>
          obtain rfl : _ = r := by simpa only [Except.ok.injEq] using h
          exact .inr ⟨d, rfl, hinst⟩
      | some closure =>
          obtain ⟨symbol, -, rfl⟩ := map_eq_ok.mp h
          exact .inr ⟨d, rfl, hinst⟩

/-- Calls of `load_module` from `s₀` on, and the modules that they have loaded, the newest
first.  The alignments are powers of two, no address goes over `2 ^ 32`, and there is room
for the descriptor. -/
inductive Run (s₀ : Loader) : Loader → List Installed → Prop
  | start : Run s₀ s₀ []
  | call {s : Loader} {mods : List Installed} {name : Text} {module : ElfParser}
      {closureName : Option Text} {fuel : Nat} {r : Loaded} (h : Run s₀ s mods)
      (hcall : s.loadModule name module closureName fuel = .ok r)
      (hok : ∀ sh ∈ module.sections, sh.AlignOk)
      (hfits : r.descriptor ≠ none →
        plannedEnd s.lastAvailableAddress module.sections r.module < wordSize)
      (hroom : r.descriptor ≠ none → HasRoom s module) :
      Run s₀ r.loader (r.installed ++ mods)

/-- What is so after a run. -/
structure LaidOut (s₀ s : Loader) (mods : List Installed) : Prop where
  stacked : Stacked s₀.lastAvailableAddress (mods.reverse.flatMap Installed.parts)
    s.lastAvailableAddress
  modules : ∀ mod ∈ mods, mod.Aligned ∧ mod.range.start % pageSize = 0 ∧
    mod.range.length % pageSize = 0 ∧ ∀ e ∈ mod.parts, e.Within mod.range
  newest : ∀ mod, mods.head? = some mod →
    s.lastAvailableAddress % pageSize = 0 ∧ mod.last = s.lastAvailableAddress ∧
    HasBytes s.mem (s.lastAvailableAddress - ModuleDescriptor.size) mod.descriptor.bytes

theorem Run.laidOut {s₀ s : Loader} {mods : List Installed} (h : Run s₀ s mods) :
    LaidOut s₀ s mods := by
  induction h with
  | start => exact ⟨le_rfl, by simp, by simp⟩
  | @call s mods name module closureName fuel r _ hcall hok hfits hroom ih =>
      rcases loadModule_cases hcall with ⟨hnone, hsame⟩ | ⟨d, hd, hinst⟩
      · rw [Loaded.installed, hnone, hsame]
        exact ih
      · have hsome : r.descriptor ≠ none := by simp [hd]
        obtain ⟨h1, h2, h3, -, h5, h6, h7, h8⟩ :=
          install_spec hinst hok (hfits hsome) rfl
        have hin : r.installed = [⟨r.module, d, r.loader.lastAvailableAddress⟩] := by
          rw [Loaded.installed, hd]
        rw [hin]
        refine ⟨?_, ?_, ?_⟩
        · rw [List.singleton_append, List.reverse_cons, List.flatMap_append, List.flatMap_singleton]
          exact ih.stacked.append h7
        · intro mod hmod
          rcases List.mem_cons.mp hmod with rfl | hmod
          · exact ⟨h1, h2, h3, h8.mpr (hroom hsome)⟩
          · exact ih.modules mod hmod
        · rintro mod hmod
          cases hmod
          exact ⟨h5, rfl, h6⟩

/-- **The layout of modules**: after a run in which every module had room, the sections are
at multiples of their alignments, the sections, tables and descriptors of all modules do
not overlap, every module is in its own range of whole pages, and the newest descriptor
ends at the last address, which is on a page. -/
theorem module_layout {s₀ s : Loader} {mods : List Installed} (h : Run s₀ s mods) :
    (mods.reverse.flatMap Installed.parts).Pairwise Extent.Apart ∧
    (∀ mod ∈ mods, mod.Aligned ∧ mod.range.start % pageSize = 0 ∧
      mod.range.length % pageSize = 0 ∧ ∀ e ∈ mod.parts, e.Within mod.range) ∧
    ∀ mod, mods.head? = some mod →
      s.lastAvailableAddress % pageSize = 0 ∧ mod.last = s.lastAvailableAddress ∧
      HasBytes s.mem (s.lastAvailableAddress - ModuleDescriptor.size) mod.descriptor.bytes :=
  ⟨h.laidOut.stacked.pairwise, h.laidOut.modules, h.laidOut.newest⟩

/-! ## Two modules. -/

/-- The names of the sections, at 0x1040. -/
def sampleMemory : Memory where
  byte x := ([0, 46, 115, 116, 114, 116, 97, 98, 0] : List UInt8).getD (x - 0x1040) 0
  stores := []

/-- An image with code, data that is cleared, symbols and names. -/
def sampleImage : ElfParser where
  start := 0x1000
  entry := 0
  shstrndx := 4
  sections := [
    ⟨0, 0, 0, 0, 0, 0, 0, 0, 0, 0⟩,
    ⟨0, 1, 6, 0, 0x60, 5, 0, 0, 16, 0⟩,
    ⟨0, 8, 3, 0, 0x65, 9, 0, 0, 32, 0⟩,
    ⟨0, 2, 0, 0, 0x70, 16, 4, 1, 4, 16⟩,
    ⟨1, 3, 0, 0, 0x40, 9, 0, 0, 1, 0⟩]
  symtab := none
  strtab := none

/-- The loader before the first module, at an address that is not on a page. -/
def sampleLoader : Loader := ⟨sampleMemory, 0, 0x2010⟩

theorem sampleImage_alignOk : ∀ sh ∈ sampleImage.sections, sh.AlignOk := by
  have hpow : ∀ sh ∈ sampleImage.sections, sh.addralign = 0 ∨ sh.addralign = 2 ^ 0 ∨
      sh.addralign = 2 ^ 2 ∨ sh.addralign = 2 ^ 4 ∨ sh.addralign = 2 ^ 5 := by decide
  intro sh hsh
  rcases hpow sh hsh with h | h | h | h | h
  · exact .inl h
  · exact .inr ⟨0, by decide, h⟩
  · exact .inr ⟨2, by decide, h⟩
  · exact .inr ⟨4, by decide, h⟩
  · exact .inr ⟨5, by decide, h⟩

theorem sampleImage_hasRoom (s : Loader) : HasRoom s sampleImage :=
  .inl ⟨⟨0, 1, 6, 0, 0x60, 5, 0, 0, 16, 0⟩, by decide, by decide⟩

theorem module_layout_two_modules :
    ∃ s mods, Run sampleLoader s mods ∧ mods.length = 2 ∧ s.lastAvailableAddress = 0x7000 ∧
      (mods.reverse.flatMap Installed.parts).Pairwise Extent.Apart := by
  have hrun : ((sampleLoader.loadModule ⟨[97], noNul_of_all rfl⟩ sampleImage none 3).bind fun r =>
      (r.loader.loadModule ⟨[98], noNul_of_all rfl⟩ sampleImage none 3).map fun r' =>
        (r.descriptor.isSome, r'.descriptor.isSome,
          decide (plannedEnd 0x2010 sampleImage.sections r.module < wordSize),
          decide (plannedEnd r.loader.lastAvailableAddress sampleImage.sections r'.module < wordSize),
          r'.loader.lastAvailableAddress)) = .ok (true, true, true, true, 0x7000) := by
    decide +kernel
  obtain ⟨r, hr, hrest⟩ := bind_eq_ok.mp hrun
  obtain ⟨r', hr', hfacts⟩ := map_eq_ok.mp hrest
  simp only [Prod.mk.injEq, decide_eq_true_eq, Option.isSome_iff_exists] at hfacts
  obtain ⟨⟨d, hd⟩, ⟨d', hd'⟩, hfits, hfits', hlast⟩ := hfacts
  have hone : Run sampleLoader r.loader (r.installed ++ []) :=
    .call .start hr sampleImage_alignOk (fun _ => hfits) fun _ => sampleImage_hasRoom _
  have htwo : Run sampleLoader r'.loader (r'.installed ++ (r.installed ++ [])) :=
    .call hone hr' sampleImage_alignOk (fun _ => hfits') fun _ => sampleImage_hasRoom _
  refine ⟨_, _, htwo, ?_, hlast, (module_layout htwo).1⟩
  simp [Loaded.installed, hd, hd']

/-- **A descriptor outside of its module**: a module with nothing to load, at an address with
room for the descriptor before the next page. -/
theorem descriptor_outside :
    ∃ r d, sampleLoader.loadModule ⟨[97], noNul_of_all rfl⟩
        ⟨0x1000, 0, 0, [⟨0, 0, 0, 0, 0, 0, 0, 0, 0, 0⟩], none, none⟩ none 3 = .ok r ∧
      r.descriptor = some d ∧ r.loader.lastAvailableAddress = 0x3000 ∧
      (Installed.mk r.module d 0x3000).descriptorPart = ⟨0x2fc0, 64⟩ ∧
      (Installed.mk r.module d 0x3000).range = ⟨0x3000, 0⟩ ∧
      ¬ (Installed.mk r.module d 0x3000).descriptorPart.Within
        (Installed.mk r.module d 0x3000).range := by
  have hcall : (sampleLoader.loadModule ⟨[97], noNul_of_all rfl⟩
      ⟨0x1000, 0, 0, [⟨0, 0, 0, 0, 0, 0, 0, 0, 0, 0⟩], none, none⟩ none 3).map (fun r =>
        (r.loader.lastAvailableAddress, r.descriptor.map fun d => (d.loadBase, d.loadedSize)))
      = .ok (0x3000, some (0x3000, 0)) := by
    decide +kernel
  obtain ⟨r, hr, hfacts⟩ := map_eq_ok.mp hcall
  obtain ⟨hlast, hd⟩ := Prod.mk.inj hfacts
  obtain ⟨d, hd, hrange⟩ := Option.map_eq_some_iff.mp hd
  obtain ⟨hbase, hsize⟩ := Prod.mk.inj hrange
  refine ⟨r, d, hr, hd, hlast, rfl, ?_, ?_⟩
  · rw [Installed.range, hbase, hsize]
  · rw [Installed.range, hbase, hsize]
    rintro ⟨hstart, -⟩
    simp only [Installed.descriptorPart, ModuleDescriptor.size] at hstart
    omega

end Metta.ModuleLoader
