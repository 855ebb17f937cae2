/-
  Metta.BuildBoot.Def — writing and reading boot images: tools/buildboot and
  kernel/arch/x86/bootimage.cpp.

  `buildboot` runs on the host and writes the image to a file.  `data_offset`
  is what it takes for the position in the file; every number goes to the file
  as a word of 32 bits.  The kernel finds the image in memory, from `location`
  to `end`, and reads it by addresses of 32 bits.

  The list file, the search path of the files and what goes to the console are
  left out: a module has its name, its contents and its lines.
-/
import Metta.Machine.Bytes

namespace Metta.BuildBoot

open Metta.Machine

/-! ## §1. Modules. -/

/-- `param`. -/
inductive Param where
  | integer (intVal : BitVec 32)
  | string (stringVal : Text)
  | symbol (symVal : Nat)

/-- `namespace_entry_t::tag_t`. -/
def Param.tag : Param → Nat
  | integer _ => 1
  | string _ => 2
  | symbol _ => 3

/-- The order of `std::string`. -/
def keyLt : List UInt8 → List UInt8 → Bool
  | [], [] => false
  | [], _ :: _ => true
  | _ :: _, [] => false
  | b :: bs, b' :: bs' => if b < b' then true else if b' < b then false else keyLt bs bs'

/-- `ns_map`: a `std::map`, in the order of the keys. -/
abbrev NsMap := List (Text × Param)

/-- `namespace_entries[key] = val`. -/
def NsMap.assign (key : Text) (val : Param) : NsMap → NsMap
  | [] => [(key, val)]
  | (k, v) :: ns =>
      if k = key then (key, val) :: ns
      else if keyLt key.bytes k.bytes then (key, val) :: (k, v) :: ns
      else (k, v) :: NsMap.assign key val ns

/-- `module_info`: the name, what is in the file, and the lines `key>value`. -/
structure ModuleInfo where
  name : Text
  contents : List UInt8
  lines : List (Text × Text)

/-- `override_ns_entry` for each line. -/
def ModuleInfo.namespaceEntries (mod : ModuleInfo) : NsMap :=
  mod.lines.foldl (fun ns line => ns.assign line.1 (.string line.2)) []

/-- `"root_domain"`. -/
def rootDomain : Text := ⟨[114, 111, 111, 116, 95, 100, 111, 109, 97, 105, 110], noNul_of_all rfl⟩

/-! ## §2. The output file. -/

/-- The file that is written and `data_offset`. -/
structure Output where
  bytes : List UInt8
  dataOffset : Nat

namespace Output

/-- `file::write`. -/
def write (out : Output) (bs : List UInt8) : Output := { out with bytes := out.bytes ++ bs }

/-- `data_offset += n`. -/
def advance (out : Output) (n : Nat) : Output := { out with dataOffset := out.dataOffset + n }

end Output

/-- `needed_align`. -/
def neededAlign (pos : Nat) : Nat := if pos % 4 ≠ 0 then 4 - pos % 4 else 0

/-- `align_output`. -/
def alignOutput (out : Output) : Output :=
  let pos := out.bytes.length
  (out.write (List.replicate (neededAlign pos) 0)).advance (neededAlign pos)

/-! ## §3. Namespaces. -/

/-- `namespace_entry_t`, with offsets into the string table. -/
structure NamespaceEntry where
  tag : Nat
  nameOff : Nat
  value : Nat

/-- `stringtable_t::append`: the offset, and the table. -/
def stringtableAppend (table : List UInt8) (addend : Text) : Nat × List UInt8 :=
  (table.length % wordSize, table ++ addend.terminated)

/-- `module_namespace1_t`: the entries and the string table. -/
structure ModuleNamespace where
  entries : List NamespaceEntry
  stringTable : List UInt8

namespace ModuleNamespace

/-- One step of the constructor. -/
def add (ns : ModuleNamespace) (entry : Text × Param) : ModuleNamespace :=
  let (nameOff, table) := stringtableAppend ns.stringTable entry.1
  match entry.2 with
  | .integer v => ⟨ns.entries ++ [⟨1, nameOff, v.toNat⟩], table⟩
  | .string s =>
      let (value, table) := stringtableAppend table s
      ⟨ns.entries ++ [⟨2, nameOff, value⟩], table⟩
  | .symbol v => ⟨ns.entries ++ [⟨3, nameOff, v⟩], table⟩

/-- The constructor. -/
def make (ns : NsMap) : ModuleNamespace := ns.foldl add ⟨[], []⟩

/-- `module_namespace1_t::size`. -/
def size (ns : ModuleNamespace) : Nat := 4 + ns.entries.length * 12 + ns.stringTable.length

/-- An entry as it is written: its offsets become positions in the image. -/
def entryBytes (dataOffset : Nat) (e : NamespaceEntry) : List UInt8 :=
  le32 e.tag ++ le32 (e.nameOff + dataOffset) ++
    le32 (if e.tag = 2 then e.value + dataOffset else e.value)

/-- `module_namespace1_t::write`. -/
def write (ns : ModuleNamespace) (out : Output) : Output :=
  let out := out.write (le32 ns.entries.length)
  let out := out.advance (4 + ns.entries.length * 12)
  let out := out.write (ns.entries.flatMap (entryBytes out.dataOffset))
  (out.write ns.stringTable).advance ns.stringTable.length

end ModuleNamespace

/-! ## §4. Writing modules. -/

/-- What `write_module_header` and `write_root_domain_header` have in common: the tag, the
size of the header, and what the header has behind the fields of a module. -/
def writeHeader (kind headerSize : Nat) (extra : List UInt8) (mod : ModuleInfo)
    (inSize nsSize : Nat) (out : Output) : Output :=
  let nameSize := mod.name.bytes.length + 1
  let out := out.advance headerSize
  let out := out.write (le32 kind ++ le32 (headerSize + nameSize + nsSize + inSize) ++
    le32 (out.dataOffset + nameSize + nsSize) ++ le32 inSize ++ le32 out.dataOffset ++
    le32 (if nsSize ≠ 0 then out.dataOffset + nameSize else 0) ++ extra ++ mod.name.terminated)
  out.advance nameSize

/-- `write_module_header`. -/
def writeModuleHeader : ModuleInfo → Nat → Nat → Output → Output := writeHeader 2 24 []

/-- `write_root_domain_header`. -/
def writeRootDomainHeader : ModuleInfo → Nat → Nat → Output → Output :=
  writeHeader 0 28 (le32 0xefbeadde)

/-- `module_info::write`. -/
def ModuleInfo.write (mod : ModuleInfo) (out : Output) : Output :=
  let headerSize := if mod.name = rootDomain then 28 else 24
  let inSize := mod.contents.length
  let namesp := ModuleNamespace.make mod.namespaceEntries
  let nameSize := mod.name.bytes.length + 1
  let nsSize := if mod.namespaceEntries.length > 0 then namesp.size else 0
  let nsSizeA := nsSize + neededAlign (out.dataOffset + headerSize + nameSize + nsSize)
  let inSizeA := inSize
    + neededAlign (out.dataOffset + headerSize + nameSize + nsSizeA + inSize)
  let out :=
    if mod.name = rootDomain then writeRootDomainHeader mod inSizeA nsSizeA out
    else writeModuleHeader mod inSizeA nsSizeA out
  let out := if nsSize ≠ 0 then namesp.write out else out
  let out := alignOutput out
  let out := (out.write mod.contents).advance inSize
  alignOutput out

/-- `'BIMG'`. -/
def magic : Nat := 0x474d4942

/-- The file that `buildboot` writes. -/
def buildboot (modules : List ModuleInfo) : List UInt8 :=
  let out := (Output.write ⟨[], 0⟩ (le32 magic ++ le32 1)).advance 8
  (modules.foldl (fun out mod => mod.write out) out).bytes

/-! ## §5. Reading images. -/

/-- `bootimage_t`. -/
structure Bootimage where
  location : Nat
  end_ : Nat

namespace Bootimage

/-- The record at `a` is one that is looked for.  A record of the root domain is not
asked for its name. -/
def isHit (img : Bootimage) (m : Memory) (kind : Nat) (name : Text) (a : Nat) : Bool :=
  m.load32 a == kind && (m.load32 a == 0 ||
    matchesText m (add32 (m.load32 (add32 a 16)) img.location) name.bytes)

/-- The loop of `find_entry`; `none` when it runs out of fuel. -/
def findFrom (img : Bootimage) (m : Memory) (kind : Nat) (name : Text) :
    Nat → Nat → Option (Option Nat)
  | 0, _ => none
  | fuel + 1, a =>
      if a < img.end_ then
        if img.isHit m kind name a then some (some a)
        else img.findFrom m kind name fuel (add32 a (m.load32 (add32 a 4)))
      else some none

/-- `find_entry`. -/
def findEntry (img : Bootimage) (m : Memory) (kind : Nat) (name : Text) (fuel : Nat) :
    Option (Option Nat) :=
  img.findFrom m kind name fuel (add32 img.location 8)

/-- The `modinfo_t` of the record at `a`: where the data is, and its size. -/
def modinfo (img : Bootimage) (m : Memory) (a : Nat) : Nat × Nat :=
  (add32 img.location (m.load32 (add32 a 8)), m.load32 (add32 a 12))

/-- `find_module`. -/
def findModule (img : Bootimage) (m : Memory) (name : Text) (fuel : Nat) : Option (Nat × Nat) :=
  (img.findEntry m 2 name fuel).map fun
    | none => (0, 0)
    | some a => img.modinfo m a

/-- `bootimage_t::namespace_t`. -/
structure Namespace where
  base : Nat
  nEntries : Nat
  entries : Nat
  deriving DecidableEq

/-- `namespace_t::set`. -/
def Namespace.set (m : Memory) (b loc : Nat) : Namespace := ⟨b, m.load32 loc, add32 loc 4⟩

/-- `find_root_domain`: the module, and its namespace if there is one. -/
def findRootDomain (img : Bootimage) (m : Memory) (fuel : Nat) :
    Option ((Nat × Nat) × Option Namespace) :=
  (img.findEntry m 0 ⟨[], noNul_of_all rfl⟩ fuel).map fun
    | none => ((0, 0), none)
    | some a => (img.modinfo m a,
        some (Namespace.set m img.location (add32 img.location (m.load32 (add32 a 20)))))

namespace Namespace

/-- The loop of the three `get` calls, over `k` entries from `i` on: the value of the
first entry with the key and the tag. -/
def getFrom (ns : Namespace) (m : Memory) (tag : Nat) (key : Text) : Nat → Nat → Option Nat
  | 0, _ => none
  | k + 1, i =>
      let entry := add32 ns.entries (12 * i)
      if cstringEquals m key (add32 (m.load32 (add32 entry 4)) ns.base) && m.load32 entry == tag then
        some (m.load32 (add32 entry 8))
      else ns.getFrom m tag key k (i + 1)

/-- `get_int`. -/
def getInt (ns : Namespace) (m : Memory) (key : Text) : Option Nat :=
  ns.getFrom m 1 key ns.nEntries 0

/-- `get_string`: where the value is. -/
def getString (ns : Namespace) (m : Memory) (key : Text) : Option Nat :=
  (ns.getFrom m 2 key ns.nEntries 0).map fun value => add32 value ns.base

/-- `get_symbol`. -/
def getSymbol (ns : Namespace) (m : Memory) (key : Text) : Option Nat :=
  ns.getFrom m 3 key ns.nEntries 0

end Namespace

end Bootimage

end Metta.BuildBoot
