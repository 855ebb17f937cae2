/-
  Metta.TypesystemMod.Registry — the registry by name and by type code.

  The tables are in step: each interface that was registered is under its type
  code and under the address of its name, and nothing else is in them.  Names
  are told apart by their addresses, so two interfaces of one name are both
  registered when their names are in two places, and a name is found only by
  the pointer that was registered.

    • `InStep`, `inStep_registerAll` — the two tables and the interfaces,
    • `get_eq` — what `get` finds,
    • `registry_keyed_by_text_iff` — when the registry is one by text.
-/
import Metta.TypesystemMod.Def

namespace Metta.TypesystemMod

open Metta.Machine Metta.Tables TypeSystem

namespace TypeSystem

variable {im : Image} {ts : TypeSystem}

/-! ## §1. One registration. -/

theorem byTypecode_eq (ts : TypeSystem) (code : Code) :
    ts.byTypecode code = ts.interfacesByTypecode.find code := by
  unfold byTypecode Card64Table.get tableGet
  cases ts.interfacesByTypecode.find code with
  | none => simp
  | some a => simp

theorem byName_eq (ts : TypeSystem) (name : Nat) :
    ts.byName name = ts.interfacesByName.find name := by
  unfold byName StringTable.get tableGet
  cases ts.interfacesByName.find name with
  | none => simp
  | some a => simp

/-- What `register_interface` can do. -/
theorem registerInterface_cases (im : Image) (ts : TypeSystem) (intf : Nat) :
    (∃ a, ts.byName (im.nameOf intf) = some a ∧
      registerInterface im ts intf = (ts, some .nameClash)) ∨
    (ts.byName (im.nameOf intf) = none ∧ (∃ a, ts.byTypecode (im.codeOf intf) = some a) ∧
      registerInterface im ts intf = (ts, some .typeCodeClash)) ∨
    (ts.byName (im.nameOf intf) = none ∧ ts.byTypecode (im.codeOf intf) = none ∧
      ∃ ts' : TypeSystem, registerInterface im ts intf = (ts', none) ∧
        (∀ n, ts'.byName n = if im.nameOf intf = n then some intf else ts.byName n) ∧
        ∀ c, ts'.byTypecode c = if im.codeOf intf = c then some intf else ts.byTypecode c) := by
  cases hn : ts.byName (im.nameOf intf) with
  | some a => exact .inl ⟨a, rfl, by simp [registerInterface, hn]⟩
  | none =>
      cases hc : ts.byTypecode (im.codeOf intf) with
      | some a => exact .inr (.inl ⟨rfl, ⟨a, rfl⟩, by simp [registerInterface, hn, hc]⟩)
      | none =>
          refine .inr (.inr ⟨rfl, rfl, _, by rw [registerInterface, hn, hc]; rfl, fun n => ?_,
            fun c => ?_⟩)
          · rw [byName_eq] at hn
            simp only [byName_eq, StringTable.put, tablePut, UnorderedMap.find_insert, hn,
              Option.getD_none]
          · rw [byTypecode_eq] at hc
            simp only [byTypecode_eq, Card64Table.put, tablePut, UnorderedMap.find_insert, hc,
              Option.getD_none]

/-! ## §2. The tables stay in step. -/

/-- The tables hold the interfaces that were registered, and nothing else. -/
structure InStep (im : Image) (s : TypeSystem × List Nat) : Prop where
  byName : ∀ n a, s.1.byName n = some a ↔ a ∈ s.2 ∧ im.nameOf a = n
  byTypecode : ∀ c a, s.1.byTypecode c = some a ↔ a ∈ s.2 ∧ im.codeOf a = c

/-- A key that is put into a table that holds the interfaces by `key`. -/
theorem holds_put {κ : Type} [DecidableEq κ] {key : Nat → κ} {done : List Nat}
    {find find' : κ → Option Nat} {intf : Nat} (h : ∀ k a, find k = some a ↔ a ∈ done ∧ key a = k)
    (hfree : find (key intf) = none)
    (hput : ∀ k, find' k = if key intf = k then some intf else find k) (k : κ) (a : Nat) :
    find' k = some a ↔ a ∈ intf :: done ∧ key a = k := by
  rw [hput k, List.mem_cons]
  by_cases hk : key intf = k
  · subst hk
    have hnot : ¬ (a ∈ done ∧ key a = key intf) := by rw [← h, hfree]; simp
    rw [if_pos rfl]
    constructor
    · rintro heq
      cases heq
      exact ⟨.inl rfl, rfl⟩
    · rintro ⟨rfl | hmem, hkey⟩
      · rfl
      · exact absurd ⟨hmem, hkey⟩ hnot
  · rw [if_neg hk, h]
    constructor
    · rintro ⟨hmem, hkey⟩
      exact ⟨.inr hmem, hkey⟩
    · rintro ⟨rfl | hmem, hkey⟩
      · exact absurd hkey hk
      · exact ⟨hmem, hkey⟩

theorem InStep.registerStep {s : TypeSystem × List Nat} (h : InStep im s) (intf : Nat) :
    InStep im (registerStep im s intf) := by
  unfold TypeSystem.registerStep
  obtain ⟨a, -, heq⟩ | ⟨-, -, heq⟩ | ⟨hn, hc, ts', heq, hname, hcode⟩ :=
    registerInterface_cases im s.1 intf
  · rw [heq]
    exact h
  · rw [heq]
    exact h
  · rw [heq]
    exact ⟨holds_put h.byName hn hname, holds_put h.byTypecode hc hcode⟩

theorem InStep.foldl {s : TypeSystem × List Nat} (h : InStep im s) (intfs : List Nat) :
    InStep im (intfs.foldl (TypeSystem.registerStep im) s) := by
  induction intfs generalizing s with
  | nil => exact h
  | cons intf intfs ih => exact ih (h.registerStep intf)

theorem inStep_empty (im : Image) : InStep im (empty, []) where
  byName n a := by simp [byName_eq, empty]
  byTypecode c a := by simp [byTypecode_eq, empty]

/-- **The tables are in step** after every sequence of registrations. -/
theorem inStep_registerAll (im : Image) (intfs : List Nat) : InStep im (registerAll im intfs) :=
  (inStep_empty im).foldl _

theorem registerAll_append (im : Image) (before after : List Nat) :
    registerAll im (before ++ after)
      = after.foldl (registerStep im) (registerAll im before) := by
  rw [registerAll, registerAll, ← List.cons_append, List.foldl_append]

/-- An interface that is registered stays so, and only those that were given are. -/
theorem mem_foldl_registerStep (im : Image) (s : TypeSystem × List Nat) (intfs : List Nat) :
    s.2 ⊆ (intfs.foldl (registerStep im) s).2 ∧
    ∀ a ∈ (intfs.foldl (registerStep im) s).2, a ∈ s.2 ∨ a ∈ intfs := by
  induction intfs generalizing s with
  | nil => exact ⟨List.Subset.refl _, fun a ha => .inl ha⟩
  | cons intf intfs ih =>
      obtain ⟨hsub, hof⟩ := ih (registerStep im s intf)
      have hstep : (registerStep im s intf).2 = s.2 ∨
          (registerStep im s intf).2 = intf :: s.2 := by
        unfold registerStep
        rcases registerInterface im s.1 intf with ⟨ts, _ | e⟩
        · exact .inr rfl
        · exact .inl rfl
      rw [List.foldl_cons]
      rcases hstep with hstep | hstep
      · rw [hstep] at hsub hof
        refine ⟨hsub, fun a ha => ?_⟩
        exact (hof a ha).imp_right (List.mem_cons_of_mem _)
      · rw [hstep] at hsub hof
        refine ⟨fun a ha => hsub (List.mem_cons_of_mem _ ha), fun a ha => ?_⟩
        rcases hof a ha with hmem | hmem
        · rcases List.mem_cons.mp hmem with rfl | hmem
          · exact .inr (List.mem_cons_self ..)
          · exact .inl hmem
        · exact .inr (List.mem_cons_of_mem _ hmem)

theorem mem_registerAll {intfs : List Nat} {a : Nat} (h : a ∈ (registerAll im intfs).2) :
    a ∈ im.metaInterface :: intfs := by
  rcases (mem_foldl_registerStep im (empty, []) (im.metaInterface :: intfs)).2 a h
    with hmem | hmem
  · cases hmem
  · exact hmem

/-! ## §3. Lookup. -/

/-- **What `get` finds**: the interface under the pointer, if the name has one component, and
nothing otherwise, for a copy of the first component is where no registered name is. -/
theorem get_eq {copy : List UInt8 → Nat} (hfresh : ∀ t, ts.byName (copy t) = none) (name : Nat) :
    get im ts copy name
      = .ok (if (split dot (im.text name).bytes).2 = [] then
          (ts.byName name).map fun a => (im.interface a).rep.code
        else none) := by
  simp only [get, internalGet]
  by_cases h : (split dot (im.text name).bytes).2 = []
  · simp only [h, ne_eq, not_true_eq_false, if_false, if_true]
    cases ts.byName name <;> rfl
  · simp only [h, ne_eq, not_false_eq_true, if_true, if_false, hfresh]
    rfl

/-! ## §4. By text. -/

/-- What a registry by text does at the registration of `intf` after the ones of `s`, and
what it finds `later`. -/
structure KeyedByText (im : Image) (copy : List UInt8 → Nat) (s : TypeSystem × List Nat)
    (intf : Nat) (later : TypeSystem) : Prop where
  nameClash : (registerInterface im s.1 intf).2 = some .nameClash ↔
    ∃ a ∈ s.2, im.text (im.nameOf a) = im.text (im.nameOf intf)
  typeCodeClash : (registerInterface im s.1 intf).2 ≠ some .nameClash →
    ((registerInterface im s.1 intf).2 = some .typeCodeClash ↔
      ∃ a ∈ s.2, im.codeOf a = im.codeOf intf)
  unchanged : (registerInterface im s.1 intf).2 ≠ none → (registerInterface im s.1 intf).1 = s.1
  found : (registerInterface im s.1 intf).2 = none →
    ∀ n, im.text n = im.text (im.nameOf intf) →
      get im later copy n = .ok (some (im.interface intf).rep.code)

/-- Where the name of `intf` is told apart from others by its address: an interface of that
name is there only with that very pointer and, when `intf` is new, its name has one component
and is nowhere else in memory. -/
structure OneName (im : Image) (done : List Nat) (intf : Nat) : Prop where
  known : ∀ a ∈ done, im.text (im.nameOf a) = im.text (im.nameOf intf) →
    ∃ b ∈ done, im.nameOf b = im.nameOf intf
  alone : (∀ a ∈ done, im.nameOf a ≠ im.nameOf intf ∧ im.codeOf a ≠ im.codeOf intf) →
    (split dot (im.text (im.nameOf intf)).bytes).2 = [] ∧
    ∀ n, im.text n = im.text (im.nameOf intf) → n = im.nameOf intf

/-- The pointer is known: the registration is of a registry by text, and the name is told
apart by its address. -/
theorem keyedByText_of_nameClash (copy : List UInt8 → Nat) {s : TypeSystem × List Nat}
    {intf b : Nat} (later : TypeSystem) (hmem : b ∈ s.2) (hname : im.nameOf b = im.nameOf intf)
    (heq : registerInterface im s.1 intf = (s.1, some .nameClash)) :
    KeyedByText im copy s intf later ∧ OneName im s.2 intf := by
  refine ⟨⟨?_, ?_, ?_, ?_⟩, ⟨fun a _ _ => ⟨b, hmem, hname⟩, fun hnew => ?_⟩⟩
  · rw [heq]
    exact ⟨fun _ => ⟨b, hmem, by rw [hname]⟩, fun _ => rfl⟩
  · rw [heq]
    exact fun hne => absurd rfl hne
  · rw [heq]
    exact fun _ => rfl
  · rw [heq]
    exact fun hnone => by cases hnone
  · exact absurd hname (hnew b hmem).1

/-- The pointer is new and the type code is known. -/
theorem keyedByText_of_typeCodeClash {copy : List UInt8 → Nat} {s : TypeSystem × List Nat}
    {intf b : Nat} (later : TypeSystem) (hnot : ∀ a ∈ s.2, im.nameOf a ≠ im.nameOf intf)
    (hmem : b ∈ s.2) (hcode : im.codeOf b = im.codeOf intf)
    (heq : registerInterface im s.1 intf = (s.1, some .typeCodeClash)) :
    KeyedByText im copy s intf later ↔ OneName im s.2 intf := by
  constructor
  · intro h
    refine ⟨fun a ha htext => ?_, fun hnew => absurd hcode (hnew b hmem).2⟩
    have := h.nameClash.mpr ⟨a, ha, htext⟩
    rw [heq] at this
    cases this
  · intro h
    refine ⟨?_, ?_, ?_, ?_⟩
    · rw [heq]
      refine ⟨fun hclash => (by cases hclash), ?_⟩
      rintro ⟨a, ha, htext⟩
      obtain ⟨c, hc, hname⟩ := h.known a ha htext
      exact absurd hname (hnot c hc)
    · rw [heq]
      exact fun _ => ⟨fun _ => ⟨b, hmem, hcode⟩, fun _ => rfl⟩
    · rw [heq]
      exact fun _ => rfl
    · rw [heq]
      exact fun hnone => by cases hnone

/-- The interface is found under every pointer to its name exactly when its name has one
component and there is one pointer. -/
theorem found_iff {copy : List UInt8 → Nat} {later : TypeSystem × List Nat} {intf : Nat}
    (hlater : InStep im later) (hin : intf ∈ later.2)
    (hfresh : ∀ t, later.1.byName (copy t) = none) :
    (∀ n, im.text n = im.text (im.nameOf intf) →
      get im later.1 copy n = .ok (some (im.interface intf).rep.code)) ↔
    (split dot (im.text (im.nameOf intf)).bytes).2 = [] ∧
    ∀ n, im.text n = im.text (im.nameOf intf) → n = im.nameOf intf := by
  constructor
  · intro hfound
    have hone : (split dot (im.text (im.nameOf intf)).bytes).2 = [] := by
      by_contra hdot
      have := hfound _ rfl
      rw [get_eq hfresh, if_neg hdot] at this
      cases this
    refine ⟨hone, fun n hn => ?_⟩
    have := hfound n hn
    rw [get_eq hfresh, hn, if_pos hone, Except.ok.injEq] at this
    obtain ⟨a, ha, hcode⟩ := Option.map_eq_some_iff.mp this
    obtain ⟨hmem, hname⟩ := (hlater.byName _ _).mp ha
    -- the two interfaces have one type code, so they are one
    have hsame : im.codeOf a = im.codeOf intf := by rw [Image.codeOf, hcode, Image.codeOf]
    have hfirst := (hlater.byTypecode (im.codeOf intf) a).mpr ⟨hmem, hsame⟩
    have hsecond := (hlater.byTypecode (im.codeOf intf) intf).mpr ⟨hin, rfl⟩
    rw [hfirst, Option.some.injEq] at hsecond
    rw [← hname, hsecond]
  · rintro ⟨hone, honly⟩ n hn
    rw [get_eq hfresh, hn, if_pos hone, honly n hn, (hlater.byName _ intf).mpr ⟨hin, rfl⟩]
    rfl

/-- Pointer and type code are new. -/
theorem keyedByText_of_registered {copy : List UInt8 → Nat} {s later : TypeSystem × List Nat}
    {ts' : TypeSystem} {intf : Nat} (hlater : InStep im later) (hin : intf ∈ later.2)
    (hfresh : ∀ t, later.1.byName (copy t) = none)
    (hnot : ∀ a ∈ s.2, im.nameOf a ≠ im.nameOf intf ∧ im.codeOf a ≠ im.codeOf intf)
    (heq : registerInterface im s.1 intf = (ts', none)) :
    KeyedByText im copy s intf later.1 ↔ OneName im s.2 intf := by
  constructor
  · -- each exception is for an entry of that text, and only for one
    intro h
    refine ⟨fun a ha htext => ?_, fun _ => ?_⟩
    · have := h.nameClash.mpr ⟨a, ha, htext⟩
      rw [heq] at this
      cases this
    · exact (found_iff hlater hin hfresh).mp (h.found (by rw [heq]))
  · -- no entry has the text, so neither exception was due
    intro h
    refine ⟨?_, ?_, ?_, ?_⟩
    · rw [heq]
      refine ⟨fun hclash => (by cases hclash), ?_⟩
      rintro ⟨a, ha, htext⟩
      obtain ⟨c, hc, hname⟩ := h.known a ha htext
      exact absurd hname (hnot c hc).1
    · rw [heq]
      refine fun _ => ⟨fun hclash => (by cases hclash), ?_⟩
      rintro ⟨a, ha, hcode⟩
      exact absurd hcode (hnot a ha).2
    · rw [heq]
      exact fun hne => absurd rfl hne
    · exact fun _ => (found_iff hlater hin hfresh).mpr (h.alone hnot)

/-- A registration is of a registry by text exactly when the name is told apart by its
address. -/
theorem keyedByText_iff {copy : List UInt8 → Nat} {s later : TypeSystem × List Nat} {intf : Nat}
    (hs : InStep im s) (hlater : InStep im later)
    (hreg : (registerInterface im s.1 intf).2 = none → intf ∈ later.2)
    (hfresh : ∀ t, later.1.byName (copy t) = none) :
    KeyedByText im copy s intf later.1 ↔ OneName im s.2 intf := by
  have hnewName : s.1.byName (im.nameOf intf) = none →
      ∀ a ∈ s.2, im.nameOf a ≠ im.nameOf intf := fun hn a ha hname => by
    rw [(hs.byName _ a).mpr ⟨ha, hname⟩] at hn
    cases hn
  obtain ⟨b, hb, heq⟩ | ⟨hn, ⟨b, hb⟩, heq⟩ | ⟨hn, hc, ts', heq, -, -⟩ :=
    registerInterface_cases im s.1 intf
  · obtain ⟨hmem, hname⟩ := (hs.byName _ _).mp hb
    have := keyedByText_of_nameClash copy later.1 hmem hname heq
    exact iff_of_true this.1 this.2
  · obtain ⟨hmem, hcode⟩ := (hs.byTypecode _ _).mp hb
    exact keyedByText_of_typeCodeClash later.1 (hnewName hn) hmem hcode heq
  · refine keyedByText_of_registered hlater (hreg (by rw [heq])) hfresh (fun a ha => ?_) heq
    refine ⟨hnewName hn a ha, fun hcode => ?_⟩
    rw [(hs.byTypecode _ a).mpr ⟨ha, hcode⟩] at hc
    cases hc

/-- **The registry is one by text exactly when the addresses of names tell the names
apart**, at every registration of every sequence. -/
theorem registry_keyed_by_text_iff (im : Image) (copy : List UInt8 → Nat) (intfs : List Nat)
    (hfresh : ∀ t, ∀ a ∈ im.metaInterface :: intfs, im.nameOf a ≠ copy t) :
    (∀ before intf after, intfs = before ++ intf :: after →
      KeyedByText im copy (registerAll im before) intf (registerAll im intfs).1) ↔
    ∀ before intf after, intfs = before ++ intf :: after →
      OneName im (registerAll im before).2 intf := by
  refine forall₄_congr fun before intf after hsplit => ?_
  refine keyedByText_iff (inStep_registerAll im before) (inStep_registerAll im intfs) ?_ ?_
  · intro hnone
    rw [hsplit, registerAll_append, List.foldl_cons]
    refine (mem_foldl_registerStep im _ after).1 ?_
    unfold registerStep
    rcases hr : registerInterface im (registerAll im before).1 intf with ⟨ts', e⟩
    rw [hr] at hnone
    cases hnone
    exact List.mem_cons_self ..
  · intro t
    rw [Option.eq_none_iff_forall_ne_some]
    intro a ha
    obtain ⟨hmem, hname⟩ := ((inStep_registerAll im intfs).byName _ _).mp ha
    exact hfresh t a (mem_registerAll hmem) hname

/-- The text of a byte. -/
def letter (b : UInt8) (h : b ≠ 0) : Text := ⟨[b], fun _ hb => by rwa [List.mem_singleton.mp hb]⟩

/-- Two interfaces that are named "a" at `0x100` and at `0x200`, and one named "b". -/
def sampleImage : Image where
  interface a :=
    let rep (name : Nat) (code : Code) : TypeRepresentation := ⟨⟨0, 0⟩, ⟨0, code⟩, name, 0, 4⟩
    if a = 0x1000 then ⟨rep 0x100 0x10000, [], 0⟩
    else if a = 0x2000 then ⟨rep 0x200 0x20000, [], 0⟩
    else if a = 0x3000 then ⟨rep 0x300 0x30000, [], 0⟩
    else ⟨rep 0x10 0, [], 0⟩
  text n :=
    if n = 0x100 ∨ n = 0x200 then letter 97 (by decide)
    else if n = 0x300 then letter 98 (by decide)
    else letter 109 (by decide)
  metaInterface := 0
  metaInterfaceClosure := 0
  aliasTypeCode := 0

/-- A name that is in one place. -/
theorem one_name_found :
    KeyedByText sampleImage (fun _ => 0x8000) (registerAll sampleImage []) 0x3000
      (registerAll sampleImage [0x3000]).1 := by
  refine (registry_keyed_by_text_iff sampleImage (fun _ => 0x8000) [0x3000] ?_).mpr ?_
    [] 0x3000 [] rfl
  · exact fun _ => by decide
  · intro before intf after h
    obtain ⟨rfl, rfl, rfl⟩ : before = [] ∧ intf = 0x3000 ∧ after = [] := by
      cases before with
      | nil => simp_all
      | cons a as => simp at h
    refine ⟨by decide +kernel, fun _ => ⟨by decide +kernel, fun n hn => ?_⟩⟩
    have hname : sampleImage.nameOf 0x3000 = 0x300 := rfl
    rw [hname] at hn ⊢
    by_contra hne
    have := congrArg Text.bytes hn
    simp only [sampleImage, hne, if_false] at this
    split at this
    · simp [letter] at this
    · simp [letter] at this

/-- **Two interfaces of one name** are both registered, when the names are in two places. -/
theorem second_of_one_name_is_registered :
    ¬ KeyedByText sampleImage (fun _ => 0x8000) (registerAll sampleImage [0x1000]) 0x2000
      (registerAll sampleImage [0x1000, 0x2000]).1 := by
  intro h
  have hclash := h.nameClash.mpr ⟨0x1000, by decide +kernel, rfl⟩
  exact absurd hclash (by decide +kernel)

end TypeSystem

end Metta.TypesystemMod
