/-
  Metta.Tables.Def — the table modules: stretch_table_mod, safe_card64table.cpp
  and stringtable.cpp of hashtables_mod, and the null driver of
  modules/tcb/stretch_driver_mod.

  The three tables wrap a `std::unordered_map` in the same way; what differs is
  the key.  The keys of the string table are `const char*`, and `std::hash` and
  `std::equal_to` take a pointer for what it is: an address.

  An out parameter is passed in with the value that it has before the call.
-/
import Metta.Machine.UnorderedMap
import Metta.Machine.Word

namespace Metta.Tables

open Metta.Machine

universe u v

variable {K : Type u} {V : Type v} [DecidableEq K]

/-! ## §1. The tables. -/

/-- `get`: the value goes to `out`, if there is one. -/
def tableGet (table : UnorderedMap K V) (k : K) (out : V) : Bool × V :=
  match table.find k with
  | some v => (true, v)
  | none => (false, out)

/-- `put`. -/
def tablePut (table : UnorderedMap K V) (k : K) (v : V) : UnorderedMap K V × Bool :=
  table.insert k v

/-- `remove`: the value goes to `out`, if there is one, and the entry is erased. -/
def tableRemove (table : UnorderedMap K V) (k : K) (out : V) : UnorderedMap K V × Bool × V :=
  match table.find k with
  | some v => (table.erase k, true, v)
  | none => (table, false, out)

/-- `size`. -/
def tableSize (table : UnorderedMap K V) : Nat := table.size % wordSize

/-- `driver_rec`. -/
structure DriverRec where
  driver : Nat
  pageWidth : Nat
  deriving DecidableEq

/-- `stretch_table_v1::state_t`: the keys are the addresses of stretches. -/
abbrev StretchTable := UnorderedMap Nat DriverRec

namespace StretchTable

/-- `get` of the stretch table. -/
def get : StretchTable → Nat → DriverRec → Bool × DriverRec := tableGet

/-- `put` of the stretch table. -/
def put (table : StretchTable) (stretch pageWidth stretchDriver : Nat) : StretchTable × Bool :=
  tablePut table stretch ⟨stretchDriver, pageWidth⟩

/-- `remove` of the stretch table. -/
def remove : StretchTable → Nat → DriverRec → StretchTable × Bool × DriverRec := tableRemove

end StretchTable

/-- `map_card64_address_v1::state_t`. -/
abbrev Card64Table := UnorderedMap (BitVec 64) Nat

namespace Card64Table

/-- `get` of the card64 table. -/
def get : Card64Table → BitVec 64 → Nat → Bool × Nat := tableGet

/-- `put` of the card64 table. -/
def put : Card64Table → BitVec 64 → Nat → Card64Table × Bool := tablePut

/-- `remove` of the card64 table. -/
def remove : Card64Table → BitVec 64 → Nat → Card64Table × Bool × Nat := tableRemove

/-- `size` of the card64 table. -/
def size : Card64Table → Nat := tableSize

end Card64Table

/-- `map_string_address_v1::state_t`: the keys are the addresses of strings. -/
abbrev StringTable (V : Type v) := UnorderedMap Nat V

namespace StringTable

/-- `get` of the string table. -/
def get : StringTable V → Nat → V → Bool × V := tableGet

/-- `put` of the string table. -/
def put : StringTable V → Nat → V → StringTable V × Bool := tablePut

/-- `remove` of the string table. -/
def remove : StringTable V → Nat → V → StringTable V × Bool × V := tableRemove

end StringTable

/-! ## §2. The null driver. -/

/-- `PAGE_WIDTH`. -/
def pageWidth : Nat := 12

/-- What `null_bind` does to the table, and what it reports: a size that is not a multiple
of the page width, and "Major confusion!". -/
structure Bound where
  table : StretchTable
  notAligned : Bool
  confusion : Bool

/-- `null_bind` of a stretch of the size `size`. -/
def nullBind (table : StretchTable) (self stretch size width : Nat) : Bound :=
  let notAligned := decide (width > pageWidth) && size % 2 ^ (width % 32) != 0
  let width := if width < pageWidth then pageWidth else width
  let (table, there) := StretchTable.put table stretch width self
  ⟨table, notAligned, there⟩

/-- `null_unbind`. -/
def nullUnbind (table : StretchTable) (stretch : Nat) : StretchTable :=
  (StretchTable.remove table stretch ⟨0, 0⟩).1

end Metta.Tables
