/-
  Metta.TypesystemMod.Lookup — looking up the types of an interface by name.

  The name of a type is the name of its interface, a dot and its own name.
  `internal_get` copies what is before the dot, and looks the copy up in a table
  whose keys are addresses: no registered name is at the address of the copy, so
  no type is found.  Were the interface found, the loop over its types would stop
  at a null pointer only, which the array that meddler puts out does not have.

    • `searchTypes_eq` — the loop runs off the end of every array,
    • `internalGet_ends` — the look-up of any name comes to an end,
    • `QualifiedGet` — what a look-up is to give,
    • `qualified_get_iff` — when it does.
-/
import Metta.TypesystemMod.Emitted

namespace Metta.TypesystemMod

open Metta.Machine
open Metta.Meddler hiding Interface

namespace TypeSystem

variable {im : Image} {ts : TypeSystem} {copy : List UInt8 → Nat}

/-! ## §1. The loops. -/

/-- The loop over the types reads behind the last of them, whatever it has found. -/
theorem searchTypes_eq (name : List UInt8) (types : List TypeRepresentation)
    (result : Option TypeRepresentation) :
    searchTypes im name types result = .error .outOfBounds := by
  induction types generalizing result with
  | nil => rfl
  | cons trep types ih => exact ih _

/-- **The look-up comes to an end**, for every name: the recursion is behind the loop. -/
theorem internalGet_ends (fuel name : Nat) (text : List UInt8) :
    internalGet im ts copy (fuel + 1) name text ≠ .error .outOfFuel := by
  unfold internalGet
  intro h
  dsimp only at h
  split at h
  · cases h
  · split at h
    · rw [searchTypes_eq] at h
      cases h
    · cases h

/-! ## §2. Qualified names. -/

/-- What the look-up of the type `t` of the interface of `node`, registered at `a`, is to give
under the pointer `name`. -/
structure QualifiedGet (im : Image) (ts : TypeSystem) (copy : List UInt8 → Nat)
    (node : InterfaceNode) (a : Nat) (t : List UInt8) (name : Nat) : Prop where
  found : (∃ d ∈ node.types, nameBytes d.alias.name = t) →
    ∃ trep ∈ (im.interface a).types, (im.text trep.name).bytes = t ∧
      get im ts copy name = .ok (some trep.code)
  absent : (∀ d ∈ node.types, nameBytes d.alias.name ≠ t) → get im ts copy name = .ok none
  inBounds : get im ts copy name ≠ .error .outOfBounds
  ends : get im ts copy name ≠ .error .outOfFuel

/-- A name that is not empty is behind a dot of the whole name. -/
theorem split_qualified_ne_nil {i t : List UInt8} (ht : t ≠ []) :
    (split dot (i ++ dot :: t)).2 ≠ [] := by
  induction i with
  | nil =>
      rw [List.nil_append, show dot :: t = [] ++ dot :: t from rfl, split_append (by simp)]
      exact ht
  | cons b i ih =>
      by_cases hb : b = dot
      · rw [hb, show dot :: i ++ dot :: t = [] ++ dot :: (i ++ dot :: t) from rfl,
          split_append (by simp)]
        simp
      · have hrest : (split dot (b :: (i ++ dot :: t))).2 = (split dot (i ++ dot :: t)).2 := by
          simp [split, hb]
        rw [List.cons_append, hrest]
        exact ih

/-- **A qualified name is not found.** -/
theorem get_qualified (hfresh : ∀ t, ts.byName (copy t) = none) {i t : List UInt8} (ht : t ≠ [])
    {name : Nat} (hname : (im.text name).bytes = i ++ dot :: t) :
    get im ts copy name = .ok none := by
  rw [get_eq hfresh, if_neg]
  rw [hname]
  exact split_qualified_ne_nil ht

/-- The look-up gives what it is to give exactly when there is nothing to be found. -/
theorem qualifiedGet_iff (hfresh : ∀ t, ts.byName (copy t) = none) {node : InterfaceNode}
    {a name : Nat} {t : List UInt8} (ht : t ≠ [])
    (hname : (im.text name).bytes = nameBytes node.name ++ dot :: t) :
    QualifiedGet im ts copy node a t name ↔ ∀ d ∈ node.types, nameBytes d.alias.name ≠ t := by
  have hget := get_qualified hfresh ht hname
  constructor
  · intro h d hd heq
    obtain ⟨trep, -, -, hsome⟩ := h.found ⟨d, hd, heq⟩
    rw [hget] at hsome
    cases hsome
  · intro hno
    refine ⟨?_, fun _ => hget, ?_, ?_⟩
    · intro hsome
      obtain ⟨d, hd, heq⟩ := hsome
      exact absurd heq (hno d hd)
    · rw [hget]
      intro h
      cases h
    · rw [hget]
      intro h
      cases h

/-- **Types are looked up by qualified name rightly exactly when there is no type of the
name**, after every sequence of registrations, of every interface. -/
theorem qualified_get_iff (im : Image) (copy : List UInt8 → Nat) (intfs : List Nat)
    (hfresh : ∀ t, ∀ a ∈ im.metaInterface :: intfs, im.nameOf a ≠ copy t)
    (node : InterfaceNode) (a : Nat) (t : List UInt8) (ht : t ≠ []) (name : Nat)
    (hname : (im.text name).bytes = nameBytes node.name ++ dot :: t) :
    QualifiedGet im (registerAll im intfs).1 copy node a t name ↔
      ∀ d ∈ node.types, nameBytes d.alias.name ≠ t := by
  refine qualifiedGet_iff (fun t => ?_) ht hname
  rw [Option.eq_none_iff_forall_ne_some]
  intro b hb
  obtain ⟨hmem, hkey⟩ := ((inStep_registerAll im intfs).byName _ _).mp hb
  exact hfresh t b (mem_registerAll hmem) hkey

/-- "i.u" is at `0x300`. -/
def otherNameImage : Image where
  interface := emittedImage.interface
  text n := if n = 0x300 then ⟨[105, 46, 117], noNul_of_all rfl⟩ else emittedImage.text n
  metaInterface := 0
  metaInterfaceClosure := 0
  aliasTypeCode := 0

/-- There is no type "u" in the interface "i", and none is found. -/
theorem no_type_is_found :
    QualifiedGet otherNameImage (registerAll otherNameImage [0x1000]).1 (fun _ => 0x8000)
      sampleNode 0x1000 [117] 0x300 := by
  refine (qualified_get_iff otherNameImage (fun _ => 0x8000) [0x1000] ?_ sampleNode 0x1000 [117]
    (by decide) 0x300 (by decide +kernel)).mpr ?_
  · exact fun _ => by decide +kernel
  · decide +kernel

/-- **A type that is there is not found**: "i.t", where the interface "i" has a type "t". -/
theorem type_is_not_found :
    get emittedImage (registerAll emittedImage [0x1000]).1 (fun _ => 0x8000) 0x300 = .ok none ∧
    ¬ QualifiedGet emittedImage (registerAll emittedImage [0x1000]).1 (fun _ => 0x8000) sampleNode
      0x1000 [116] 0x300 := by
  have hget : get emittedImage (registerAll emittedImage [0x1000]).1 (fun _ => 0x8000) 0x300
      = .ok none := by decide +kernel
  refine ⟨hget, fun h => ?_⟩
  obtain ⟨trep, -, -, hsome⟩ := h.found ⟨_, List.mem_cons_self .., by decide +kernel⟩
  rw [hget] at hsome
  cases hsome

end TypeSystem

end Metta.TypesystemMod
