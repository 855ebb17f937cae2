/-
  Metta.TypesystemMod.Def — typesystem_mod.cpp and the type code macros of
  interface_v1_state.h.

  The records that meddler emits and the strings they point to are not written
  by the type system: an `Image` gives them by address.  The type system itself
  is its two tables, by type code and by name.

    • `query` — `info`, `size`, `name` and `docstring` are one check and a field,
    • `isType`, `narrow`, `unalias` — with fuel for their loops,
    • `registerInterface`, `internalGet`.
-/
import Metta.Tables.Def
import Metta.Machine.Bytes
import Metta.Machine.Split

namespace Metta.TypesystemMod

open Metta.Machine Metta.Tables

/-! ## §1. Type codes and records. -/

/-- `types::code`. -/
abbrev Code := BitVec 64

/-- `types::any`. -/
structure Any where
  type_ : Code
  value : BitVec 64
  deriving DecidableEq

/-- `type_representation_t`; `name` and `autodoc` are addresses of strings. -/
structure TypeRepresentation where
  any : Any
  code : Any
  name : Nat
  autodoc : Nat
  size : Nat
  deriving DecidableEq

/-- `interface_v1::state_t`. -/
structure Interface where
  rep : TypeRepresentation
  types : List TypeRepresentation
  supertype : Code
  deriving DecidableEq

/-- `num_types`. -/
def Interface.numTypes (b : Interface) : Nat := b.types.length

/-- The exceptions of `type_system_v1` and `type_system_f_v1`. -/
inductive Raise where
  | badCode (code : Code)
  | incompatible
  | nameClash
  | typeCodeClash
  deriving DecidableEq

/-- How a call can end without a result. -/
inductive Halt where
  | raised (e : Raise)
  | outOfBounds
  | outOfFuel
  deriving DecidableEq

/-- `OS_RAISE`. -/
def raise {α : Type} (e : Raise) : Except Halt α := .error (.raised e)

/-- `TCODE_MASK`. -/
def tcodeMask : Code := 0xffff

/-- `TCODE_INTF_CODE`. -/
def tcodeIntfCode (tc : Code) : Code := tc &&& ~~~tcodeMask

/-- `TCODE_IS_INTERFACE`. -/
def tcodeIsInterface (tc : Code) : Bool := tc &&& tcodeMask == 0

/-- The low 16 bits. -/
def tcodeIndex (tc : Code) : Nat := (tc &&& tcodeMask).toNat

/-- `TCODE_VALID_TYPE`. -/
def tcodeValidType (tc : Code) (b : Interface) : Bool := decide (tcodeIndex tc ≤ b.numTypes)

/-- `TCODE_WHICH_TYPE`: the index is taken in 64 bits. -/
def tcodeWhichType (tc : Code) (b : Interface) : Except Halt TypeRepresentation :=
  match b.types[((tc &&& tcodeMask) - 1).toNat]? with
  | some trep => .ok trep
  | none => .error .outOfBounds

/-! ## §2. The state. -/

/-- What the type system reads: the records at their addresses, the strings at theirs, where
`meta_interface` and its closure are, and the code of the type `alias`. -/
structure Image where
  interface : Nat → Interface
  text : Nat → Text
  metaInterface : Nat
  metaInterfaceClosure : Nat
  aliasTypeCode : Code

/-- The name of the interface at `a`, as an address. -/
def Image.nameOf (im : Image) (a : Nat) : Nat := (im.interface a).rep.name

/-- The type code of the interface at `a`. -/
def Image.codeOf (im : Image) (a : Nat) : Code := (im.interface a).rep.code.value

/-- `type_system_f_v1::state_t`. -/
structure TypeSystem where
  interfacesByTypecode : Card64Table
  interfacesByName : StringTable Nat

namespace TypeSystem

/-- `interfaces_by_typecode->get`. -/
def byTypecode (ts : TypeSystem) (code : Code) : Option Nat :=
  let (there, a) := Card64Table.get ts.interfacesByTypecode code 0
  if there then some a else none

/-- `interfaces_by_name->get`. -/
def byName (ts : TypeSystem) (name : Nat) : Option Nat :=
  let (there, a) := StringTable.get ts.interfacesByName name 0
  if there then some a else none

variable (im : Image) (ts : TypeSystem)

/-! ## §3. Queries. -/

/-- The check that four queries begin with, and what they answer for an interface type and
for a type within an interface. -/
def query {α : Type} (ofInterface : Interface → α) (ofType : Interface → TypeRepresentation → α)
    (tc : Code) : Except Halt α :=
  match ts.byTypecode (tcodeIntfCode tc) with
  | none => raise (.badCode tc)
  | some a =>
      let iface := im.interface a
      if tcodeIsInterface tc then .ok (ofInterface iface)
      else if !tcodeValidType tc iface then raise (.badCode tc)
      else (tcodeWhichType tc iface).map (ofType iface)

/-- `info`: the closure of the interface and the representation. -/
def info : Code → Except Halt (Nat × Any) :=
  query im ts (fun iface => (im.metaInterfaceClosure, iface.rep.any))
    (fun iface trep => (iface.rep.any.value.toNat % 2 ^ 32, trep.any))

/-- `size`. -/
def size : Code → Except Halt Nat :=
  query im ts (fun iface => iface.rep.size) (fun _ trep => trep.size)

/-- `name`: a copy of the string. -/
def name : Code → Except Halt Text :=
  query im ts (fun iface => im.text iface.rep.name) (fun _ trep => im.text trep.name)

/-- `docstring`: a copy of the string. -/
def docstring : Code → Except Halt Text :=
  query im ts (fun iface => im.text iface.rep.autodoc) (fun _ trep => im.text trep.autodoc)

/-- The loop of `is_type` over supertypes. -/
def isTypeLoop (super : Code) : Nat → Interface → Except Halt Bool
  | 0, _ => .error .outOfFuel
  | fuel + 1, iface =>
      if iface.rep.code.value ≠ super then
        if iface.supertype = 0 then .ok false
        else
          match ts.byTypecode iface.supertype with
          | none => raise (.badCode iface.supertype)
          | some a => isTypeLoop super fuel (im.interface a)
      else .ok true

/-- `is_type`: the index of neither code is looked at. -/
def isType (fuel : Nat) (sub super : Code) : Except Halt Bool :=
  match ts.byTypecode (tcodeIntfCode super) with
  | none => raise (.badCode super)
  | some _ =>
      if sub = super then .ok true
      else
        match ts.byTypecode (tcodeIntfCode sub) with
        | none => raise (.badCode sub)
        | some a =>
            if tcodeIsInterface sub then isTypeLoop im ts super fuel (im.interface a)
            else .ok false

/-- `narrow`. -/
def narrow (fuel : Nat) (a : Any) (tc : Code) : Except Halt (BitVec 64) :=
  (isType im ts fuel a.type_ tc).bind fun b => if !b then raise .incompatible else .ok a.value

/-- `unalias`. -/
def unalias : Nat → Code → Except Halt Code
  | 0, _ => .error .outOfFuel
  | fuel + 1, tc =>
      match ts.byTypecode (tcodeIntfCode tc) with
      | none => raise (.badCode tc)
      | some a =>
          let iface := im.interface a
          if tcodeIsInterface tc then .ok tc
          else if !tcodeValidType tc iface then raise (.badCode tc)
          else
            (tcodeWhichType tc iface).bind fun trep =>
              if trep.any.type_ ≠ im.aliasTypeCode then .ok tc
              else unalias fuel trep.any.value

/-! ## §4. Registration and lookup by name. -/

/-- `register_interface`, with what it raises.  The method tables that it fills in are in
the closures of the records. -/
def registerInterface (intf : Nat) : TypeSystem × Option Raise :=
  if (ts.byName (im.nameOf intf)).isSome then (ts, some .nameClash)
  else if (ts.byTypecode (im.codeOf intf)).isSome then (ts, some .typeCodeClash)
  else
    let byName := (StringTable.put ts.interfacesByName (im.nameOf intf) intf).1
    let byTypecode := (Card64Table.put ts.interfacesByTypecode (im.codeOf intf) intf).1
    (⟨byTypecode, byName⟩, none)

/-- The loop of `internal_get` over the types, with the rest of the array and the last type of
the name that it came by.  It stops at a null pointer; there is none among the types, so it goes
on to read behind the last of them. -/
def searchTypes (name : List UInt8) :
    List TypeRepresentation → Option TypeRepresentation → Except Halt (Option TypeRepresentation)
  | [], _ => .error .outOfBounds
  | trep :: types, result =>
      searchTypes name types (if name = (im.text trep.name).bytes then some trep else result)

/-- `internal_get` of the name at `name`, whose text is `text`; `copy` is where
`string_n_copy` puts a copy. -/
def internalGet (copy : List UInt8 → Nat) :
    Nat → Nat → List UInt8 → Except Halt (Option TypeRepresentation)
  | 0, _, _ => .error .outOfFuel
  | fuel + 1, name, text =>
      let refs := split dot text
      let key := if refs.2 ≠ [] then copy refs.1 else name
      match ts.byName key with
      | none => .ok none
      | some a =>
          let iface := im.interface a
          if refs.2 ≠ [] then
            (searchTypes im refs.2 iface.types none).bind fun result =>
              if result.isNone && a == im.metaInterface then
                internalGet copy fuel (name + refs.1.length + 1) refs.2
              else .ok result
          else .ok (some iface.rep)

/-- `get`: every round of `internal_get` drops a dot at least. -/
def get (copy : List UInt8 → Nat) (name : Nat) : Except Halt (Option Any) :=
  let text := (im.text name).bytes
  (internalGet im ts copy (text.length + 1) name text).map fun result =>
    result.map fun trep => trep.code

/-! ## §5. Runs. -/

/-- `create`, before `meta_interface` is registered. -/
def empty : TypeSystem := ⟨.empty, .empty⟩

/-- A registration; the interfaces that are registered are kept, the newest first. -/
def registerStep (s : TypeSystem × List Nat) (intf : Nat) : TypeSystem × List Nat :=
  match registerInterface im s.1 intf with
  | (ts, none) => (ts, intf :: s.2)
  | (ts, some _) => (ts, s.2)

/-- The type system after registrations, and the interfaces that are registered. -/
def registerAll (intfs : List Nat) : TypeSystem × List Nat :=
  (im.metaInterface :: intfs).foldl (registerStep im) (empty, [])

end TypeSystem

end Metta.TypesystemMod
