/-
  Metta.BuildBoot.Layout — what a boot image looks like.

  Every record starts at a multiple of four, so the padding in it does not
  depend on where it is.  The writer adds sizes up in one place and counts
  positions in another; both come to the same (`write_eq`).

    • `ModuleInfo.record` — the bytes of a record,
    • `write_eq`, `buildboot_eq` — the file is the records one by one,
    • `Loaded` — an image in memory, `Loaded.laid` — its records lie in a row,
    • `RecordAt` — a record in memory, with its fields.
-/
import Metta.BuildBoot.Def
import Metta.Machine.Records

namespace Metta.BuildBoot

open Metta.Machine

/-! ## §1. Sizes. -/

theorem neededAlign_add {d : Nat} (h : d % 4 = 0) (n : Nat) : neededAlign (d + n) = neededAlign n := by
  have hmod : (d + n) % 4 = n % 4 := by omega
  rw [neededAlign, neededAlign, hmod]

theorem neededAlign_lt (n : Nat) : neededAlign n < 4 := by
  unfold neededAlign
  split <;> omega

theorem aligned (n : Nat) : (n + neededAlign n) % 4 = 0 := by
  unfold neededAlign
  split <;> omega

namespace ModuleInfo

/-- The size of the header. -/
def headerSize (mod : ModuleInfo) : Nat := if mod.name = rootDomain then 28 else 24

/-- The size of the name. -/
def nameSize (mod : ModuleInfo) : Nat := mod.name.bytes.length + 1

/-- The namespace that is written. -/
def ns (mod : ModuleInfo) : ModuleNamespace := .make mod.namespaceEntries

/-- The size of the namespace. -/
def nsSize (mod : ModuleInfo) : Nat := if mod.namespaceEntries.length > 0 then mod.ns.size else 0

/-- The size of the namespace with its padding. -/
def nsSizeA (mod : ModuleInfo) : Nat :=
  mod.nsSize + neededAlign (mod.headerSize + mod.nameSize + mod.nsSize)

/-- The size of the data with its padding. -/
def inSizeA (mod : ModuleInfo) : Nat := mod.contents.length + neededAlign mod.contents.length

/-- Where the data starts in the record. -/
def dataStart (mod : ModuleInfo) : Nat := mod.headerSize + mod.nameSize + mod.nsSizeA

/-- The size of the record. -/
def recordSize (mod : ModuleInfo) : Nat := mod.dataStart + mod.inSizeA

theorem dataStart_mod (mod : ModuleInfo) : mod.dataStart % 4 = 0 := by
  have := aligned (mod.headerSize + mod.nameSize + mod.nsSize)
  rw [dataStart, nsSizeA]
  omega

theorem recordSize_mod (mod : ModuleInfo) : mod.recordSize % 4 = 0 := by
  have h1 := mod.dataStart_mod
  have h2 := aligned mod.contents.length
  rw [recordSize, inSizeA]
  omega

theorem headerSize_le (mod : ModuleInfo) : 24 ≤ mod.headerSize := by
  unfold headerSize
  split <;> omega

theorem recordSize_pos (mod : ModuleInfo) : 0 < mod.recordSize := by
  have := mod.headerSize_le
  rw [recordSize, dataStart]
  omega

end ModuleInfo

/-! ## §2. The bytes of a record. -/

/-- The namespace as it is written behind the position `d`. -/
def ModuleNamespace.image (ns : ModuleNamespace) (d : Nat) : List UInt8 :=
  le32 ns.entries.length ++ ns.entries.flatMap (entryBytes (d + (4 + ns.entries.length * 12)))
    ++ ns.stringTable

theorem length_entryBytes (d : Nat) (e : NamespaceEntry) :
    (ModuleNamespace.entryBytes d e).length = 12 := rfl

theorem length_flatMap_entryBytes (d : Nat) (es : List NamespaceEntry) :
    (es.flatMap (ModuleNamespace.entryBytes d)).length = es.length * 12 := by
  induction es with
  | nil => rfl
  | cons e es ih =>
      rw [List.flatMap_cons, List.length_append, length_entryBytes, ih, List.length_cons]
      omega

@[simp] theorem ModuleNamespace.length_image (ns : ModuleNamespace) (d : Nat) :
    (ns.image d).length = ns.size := by
  rw [ModuleNamespace.image, List.length_append, List.length_append, length_flatMap_entryBytes,
    ModuleNamespace.size, length_le32]

theorem ModuleNamespace.write_eq (ns : ModuleNamespace) (out : Output) :
    ns.write out = ⟨out.bytes ++ ns.image out.dataOffset, out.dataOffset + ns.size⟩ := by
  simp only [ModuleNamespace.write, Output.write, Output.advance, ModuleNamespace.image,
    ModuleNamespace.size, List.append_assoc, Nat.add_assoc]

namespace ModuleInfo

/-- The tag of the record. -/
def kind (mod : ModuleInfo) : Nat := if mod.name = rootDomain then 0 else 2

/-- What the header of a root domain has more. -/
def extra (mod : ModuleInfo) : List UInt8 :=
  if mod.name = rootDomain then le32 0xefbeadde else []

/-- The fields of the header, for a record at the position `d`. -/
def header (mod : ModuleInfo) (d : Nat) : List UInt8 :=
  le32 mod.kind ++ le32 mod.recordSize ++ le32 (d + mod.dataStart) ++ le32 mod.inSizeA ++
    le32 (d + mod.headerSize) ++
    le32 (if mod.nsSizeA ≠ 0 then d + mod.headerSize + mod.nameSize else 0) ++ mod.extra

/-- The namespace as it is written, if there is one. -/
def nsImage (mod : ModuleInfo) (d : Nat) : List UInt8 :=
  if mod.nsSize ≠ 0 then mod.ns.image d else []

/-- The bytes of the record, for the position `d`. -/
def record (mod : ModuleInfo) (d : Nat) : List UInt8 :=
  mod.header d ++ (mod.name.terminated ++ (mod.nsImage (d + mod.headerSize + mod.nameSize) ++
    (List.replicate (neededAlign (mod.headerSize + mod.nameSize + mod.nsSize)) 0 ++
      (mod.contents ++ List.replicate (neededAlign mod.contents.length) 0))))

@[simp] theorem length_header (mod : ModuleInfo) (d : Nat) :
    (mod.header d).length = mod.headerSize := by
  simp only [header, extra, headerSize, List.length_append, length_le32]
  split <;> simp

@[simp] theorem length_nsImage (mod : ModuleInfo) (d : Nat) :
    (mod.nsImage d).length = mod.nsSize := by
  by_cases h : mod.nsSize = 0
  · rw [nsImage, if_neg (not_not.mpr h), h]
    rfl
  · rw [nsImage, if_pos h, ModuleNamespace.length_image]
    have hpos : mod.namespaceEntries.length > 0 := by
      by_contra hno
      exact h (if_neg hno)
    exact (if_pos hpos).symm

@[simp] theorem length_record (mod : ModuleInfo) (d : Nat) :
    (mod.record d).length = mod.recordSize := by
  simp only [record, List.length_append, length_header, Text.length_terminated, length_nsImage,
    List.length_replicate, recordSize, dataStart, nsSizeA, inSizeA, nameSize]
  omega

end ModuleInfo

/-! ## §3. What is written. -/

theorem alignOutput_eq {bs : List UInt8} {d : Nat} (h : bs.length = d) :
    alignOutput ⟨bs, d⟩ = ⟨bs ++ List.replicate (neededAlign d) 0, d + neededAlign d⟩ := by
  simp only [alignOutput, Output.write, Output.advance, h]

/-- The header of a record, written at a position that is a multiple of four. -/
theorem writeHeader_eq (mod : ModuleInfo) {out : Output} (kind headerSize : Nat)
    (extra : List UInt8) (hk : kind = mod.kind) (hs : headerSize = mod.headerSize)
    (he : extra = mod.extra) :
    writeHeader kind headerSize extra mod mod.inSizeA mod.nsSizeA out
      = ⟨out.bytes ++ (mod.header out.dataOffset ++ mod.name.terminated),
          out.dataOffset + mod.headerSize + mod.nameSize⟩ := by
  subst hk hs he
  simp only [writeHeader, Output.advance, Output.write, ModuleInfo.header, ModuleInfo.recordSize,
    ModuleInfo.dataStart, ModuleInfo.nameSize, Nat.add_assoc]

theorem writeKind_eq (mod : ModuleInfo) (out : Output) :
    (if mod.name = rootDomain then writeRootDomainHeader mod mod.inSizeA mod.nsSizeA out
      else writeModuleHeader mod mod.inSizeA mod.nsSizeA out)
      = ⟨out.bytes ++ (mod.header out.dataOffset ++ mod.name.terminated),
          out.dataOffset + mod.headerSize + mod.nameSize⟩ := by
  by_cases h : mod.name = rootDomain
  · rw [if_pos h]
    exact writeHeader_eq mod 0 28 _ (by simp [ModuleInfo.kind, h])
      (by simp [ModuleInfo.headerSize, h]) (by simp [ModuleInfo.extra, h])
  · rw [if_neg h]
    exact writeHeader_eq mod 2 24 _ (by simp [ModuleInfo.kind, h])
      (by simp [ModuleInfo.headerSize, h]) (by simp [ModuleInfo.extra, h])

theorem writeNs_eq (mod : ModuleInfo) (out : Output) :
    (if mod.nsSize ≠ 0 then mod.ns.write out else out)
      = ⟨out.bytes ++ mod.nsImage out.dataOffset, out.dataOffset + mod.nsSize⟩ := by
  by_cases h : mod.nsSize = 0
  · simp [ModuleInfo.nsImage, h]
  · have hlen := mod.length_nsImage out.dataOffset
    rw [ModuleInfo.nsImage, if_pos h, ModuleNamespace.length_image] at hlen
    rw [if_pos h, ModuleNamespace.write_eq, ModuleInfo.nsImage, if_pos h, hlen]

/-- **A module is written as its record.** -/
theorem write_eq (mod : ModuleInfo) {out : Output} (hlen : out.bytes.length = out.dataOffset)
    (hmod : out.dataOffset % 4 = 0) :
    mod.write out = ⟨out.bytes ++ mod.record out.dataOffset, out.dataOffset + mod.recordSize⟩ := by
  obtain ⟨bs, d⟩ := out
  simp only at hlen hmod ⊢
  have hstart : (d + mod.dataStart) % 4 = 0 := by
    have := mod.dataStart_mod
    omega
  -- the two paddings do not depend on the position
  have hpad : neededAlign (d + mod.headerSize + mod.nameSize + mod.nsSize)
      = neededAlign (mod.headerSize + mod.nameSize + mod.nsSize) := by
    rw [Nat.add_assoc d, Nat.add_assoc d, neededAlign_add hmod]
  have hpad' : neededAlign (d + mod.headerSize + mod.nameSize + mod.nsSizeA + mod.contents.length)
      = neededAlign mod.contents.length := by
    rw [Nat.add_assoc d, Nat.add_assoc d]
    exact neededAlign_add hstart _
  have hw : mod.write ⟨bs, d⟩ =
      (let out := if mod.name = rootDomain then
          writeRootDomainHeader mod mod.inSizeA mod.nsSizeA ⟨bs, d⟩
        else writeModuleHeader mod mod.inSizeA mod.nsSizeA ⟨bs, d⟩
      let out := if mod.nsSize ≠ 0 then mod.ns.write out else out
      let out := alignOutput out
      let out := (out.write mod.contents).advance mod.contents.length
      alignOutput out) := by
    rw [ModuleInfo.inSizeA, ← hpad', ModuleInfo.nsSizeA, ← hpad]
    rfl
  have hend : d + mod.headerSize + mod.nameSize + mod.nsSize
      + neededAlign (mod.headerSize + mod.nameSize + mod.nsSize) = d + mod.dataStart := by
    rw [ModuleInfo.dataStart, ModuleInfo.nsSizeA]
    omega
  have hlen1 : (bs ++ (mod.header d ++ mod.name.terminated)
      ++ mod.nsImage (d + mod.headerSize + mod.nameSize)).length
      = d + mod.headerSize + mod.nameSize + mod.nsSize := by
    simp only [List.length_append, ModuleInfo.length_header, Text.length_terminated,
      ModuleInfo.length_nsImage, hlen, ModuleInfo.nameSize]
    omega
  rw [hw, writeKind_eq]
  simp only [writeNs_eq, alignOutput_eq hlen1, Output.write, Output.advance, hpad, hend]
  rw [alignOutput_eq]
  · rw [neededAlign_add hstart]
    simp only [ModuleInfo.record, ModuleInfo.recordSize, ModuleInfo.inSizeA, List.append_assoc,
      Nat.add_assoc]
  · rw [List.length_append, List.length_append, hlen1, List.length_replicate, hend]

/-- The records of modules from the position `d` on. -/
def records : Nat → List ModuleInfo → List UInt8
  | _, [] => []
  | d, mod :: mods => mod.record d ++ records (d + mod.recordSize) mods

/-- **The file is the header and the records.** -/
theorem buildboot_eq (mods : List ModuleInfo) :
    buildboot mods = le32 magic ++ le32 1 ++ records 8 mods := by
  have hrun : ∀ (mods : List ModuleInfo) (out : Output), out.bytes.length = out.dataOffset →
      out.dataOffset % 4 = 0 →
      (mods.foldl (fun out mod => mod.write out) out).bytes
        = out.bytes ++ records out.dataOffset mods := by
    intro mods
    induction mods with
    | nil => intro out _ _; simp [records]
    | cons mod mods ih =>
        intro out hlen hmod
        rw [List.foldl_cons, write_eq mod hlen hmod, ih]
        · rw [records, List.append_assoc]
        · simp only [List.length_append, ModuleInfo.length_record, hlen]
        · have := mod.recordSize_mod
          simp only
          omega
  exact hrun mods _ rfl rfl

/-! ## §4. The image in memory. -/

/-- The image of `mods` is in memory and all of it has addresses of 32 bits. -/
structure Loaded (mods : List ModuleInfo) (m : Memory) (img : Bootimage) : Prop where
  bytes : HasBytes m img.location (buildboot mods)
  end_eq : img.end_ = img.location + (buildboot mods).length
  fits : img.end_ < wordSize

/-- A memory with the image of `mods` at `location`, and zeros around it. -/
def imageAt (location : Nat) (mods : List ModuleInfo) : Memory where
  byte x := if location ≤ x then (buildboot mods).getD (x - location) 0 else 0
  stores := []

theorem loaded_imageAt {location : Nat} {mods : List ModuleInfo}
    (h : location + (buildboot mods).length < wordSize) :
    Loaded mods (imageAt location mods) ⟨location, location + (buildboot mods).length⟩ := by
  refine ⟨fun i hi => ?_, rfl, h⟩
  simp only [imageAt, Nat.le_add_right, if_true, Nat.add_sub_cancel_left]
  rw [List.getD_eq_getElem?_getD, List.getElem?_eq_getElem hi, Option.getD_some]

/-- The record of `mod` is at `a`. -/
structure RecordAt (m : Memory) (img : Bootimage) (a : Nat) (mod : ModuleInfo) : Prop where
  behind : img.location ≤ a
  position : (a - img.location) % 4 = 0
  fits : a + mod.recordSize < wordSize
  bytes : HasBytes m a (mod.record (a - img.location))

theorem laid_records {m : Memory} {img : Bootimage} (mods : List ModuleInfo) {d : Nat}
    (hd : d % 4 = 0) (h : HasBytes m (img.location + d) (records d mods))
    (hfits : img.location + d + (records d mods).length < wordSize) :
    Laid ModuleInfo.recordSize (RecordAt m img) (img.location + d) mods
      (img.location + d + (records d mods).length) := by
  induction mods generalizing d with
  | nil => rfl
  | cons mod mods ih =>
      have hsize := mod.recordSize_mod
      rw [records, hasBytes_append, ModuleInfo.length_record, Nat.add_assoc] at h
      rw [records, List.length_append, ModuleInfo.length_record, ← Nat.add_assoc] at hfits ⊢
      have hdiff : img.location + d - img.location = d := by omega
      refine ⟨⟨by omega, by rwa [hdiff], by omega, by rw [hdiff]; exact h.1⟩, ?_⟩
      rw [Nat.add_assoc img.location] at hfits ⊢
      exact ih (by omega) h.2 hfits

/-- **The records of an image lie in a row**, from behind the header to the end. -/
theorem Loaded.laid {mods : List ModuleInfo} {m : Memory} {img : Bootimage}
    (h : Loaded mods m img) :
    Laid ModuleInfo.recordSize (RecordAt m img) (img.location + 8) mods img.end_ := by
  have hend := h.end_eq
  have hfits := h.fits
  have hbytes := h.bytes
  rw [buildboot_eq, hasBytes_append] at hbytes
  rw [buildboot_eq, List.length_append, List.length_append, length_le32, length_le32,
    ← Nat.add_assoc] at hend
  rw [hend] at hfits ⊢
  exact laid_records mods (by decide) hbytes.2 hfits

/-! ## §5. The fields of a record. -/

namespace RecordAt

variable {m : Memory} {img : Bootimage} {a : Nat} {mod : ModuleInfo}

theorem header (h : RecordAt m img a mod) : HasBytes m a (mod.header (a - img.location)) :=
  (hasBytes_append.mp h.bytes).1

theorem lt (h : RecordAt m img a mod) : a < wordSize := lt_of_le_of_lt (Nat.le_add_right _ _) h.fits

/-- The field behind the fields `pre`. -/
theorem field (h : RecordAt m img a mod) (pre : List UInt8) {v : Nat} {post : List UInt8}
    (hsplit : mod.header (a - img.location) = pre ++ (le32 v ++ post)) (hv : v < wordSize) :
    m.load32 (add32 a pre.length) = v := by
  have hlen := mod.length_header (a - img.location)
  rw [hsplit, List.length_append, List.length_append, length_le32] at hlen
  have hsize : mod.headerSize ≤ mod.recordSize := by
    rw [ModuleInfo.recordSize, ModuleInfo.dataStart]
    omega
  have hfits := h.fits
  have hb := h.header
  rw [hsplit, hasBytes_append, hasBytes_append] at hb
  rw [add32_eq (by omega), hb.2.1.load32, Nat.mod_eq_of_lt hv]

theorem sizes (h : RecordAt m img a mod) :
    a - img.location + mod.headerSize + mod.nameSize + mod.nsSizeA + mod.inSizeA < wordSize := by
  have hfits := h.fits
  rw [ModuleInfo.recordSize, ModuleInfo.dataStart] at hfits
  omega

/-- The tag. -/
theorem kind (h : RecordAt m img a mod) : m.load32 a = mod.kind := by
  have hkind : mod.kind < wordSize := by
    unfold ModuleInfo.kind
    split <;> decide
  have hfield := h.field [] rfl hkind
  rwa [List.length_nil, add32_eq h.lt] at hfield

/-- The length of the record. -/
theorem length (h : RecordAt m img a mod) : m.load32 (add32 a 4) = mod.recordSize :=
  h.field (le32 mod.kind) rfl (lt_of_le_of_lt (Nat.le_add_left _ _) h.fits)

/-- Where the data is, and its size. -/
theorem modinfo (h : RecordAt m img a mod) :
    img.modinfo m a = (a + mod.dataStart, mod.inSizeA) := by
  have hbehind := h.behind
  have hsizes := h.sizes
  have haddr : m.load32 (add32 a 8) = a - img.location + mod.dataStart :=
    h.field (le32 mod.kind ++ le32 mod.recordSize) rfl (by rw [ModuleInfo.dataStart]; omega)
  have hsize : m.load32 (add32 a 12) = mod.inSizeA :=
    h.field (le32 mod.kind ++ le32 mod.recordSize ++ le32 (a - img.location + mod.dataStart)) rfl
      (by omega)
  have hfits := h.fits
  rw [ModuleInfo.recordSize] at hfits
  rw [Bootimage.modinfo, haddr, hsize, add32_eq (by omega)]
  congr 1
  omega

/-- Where the name is. -/
theorem nameField (h : RecordAt m img a mod) :
    add32 (m.load32 (add32 a 16)) img.location = a + mod.headerSize := by
  have hbehind := h.behind
  have hsizes := h.sizes
  have hname : m.load32 (add32 a 16) = a - img.location + mod.headerSize :=
    h.field (le32 mod.kind ++ le32 mod.recordSize ++ le32 (a - img.location + mod.dataStart)
      ++ le32 mod.inSizeA) rfl (by omega)
  have hfits := h.fits
  rw [ModuleInfo.recordSize, ModuleInfo.dataStart] at hfits
  rw [hname, add32_eq (by omega)]
  omega

/-- `local_namespace_offset`. -/
theorem nsField (h : RecordAt m img a mod) :
    m.load32 (add32 a 20)
      = if mod.nsSizeA ≠ 0 then a - img.location + mod.headerSize + mod.nameSize else 0 := by
  have hsizes := h.sizes
  refine h.field (le32 mod.kind ++ le32 mod.recordSize ++ le32 (a - img.location + mod.dataStart)
    ++ le32 mod.inSizeA ++ le32 (a - img.location + mod.headerSize)) rfl ?_
  split
  · omega
  · decide

/-- The name. -/
theorem name (h : RecordAt m img a mod) : HasBytes m (a + mod.headerSize) mod.name.terminated := by
  have hrest := (hasBytes_append.mp h.bytes).2
  rw [ModuleInfo.length_header] at hrest
  exact (hasBytes_append.mp hrest).1

/-- The namespace. -/
theorem namespace_ (h : RecordAt m img a mod) :
    HasBytes m (a + mod.headerSize + mod.nameSize)
      (mod.nsImage (a - img.location + mod.headerSize + mod.nameSize)) := by
  have hrest := (hasBytes_append.mp h.bytes).2
  rw [ModuleInfo.length_header] at hrest
  have hrest := (hasBytes_append.mp hrest).2
  rw [Text.length_terminated] at hrest
  exact (hasBytes_append.mp hrest).1

/-- The data and the padding behind it. -/
theorem data (h : RecordAt m img a mod) :
    HasBytes m (a + mod.dataStart)
      (mod.contents ++ List.replicate (neededAlign mod.contents.length) 0) := by
  have hbytes := h.bytes
  rw [ModuleInfo.record, hasBytes_append, hasBytes_append, hasBytes_append, hasBytes_append] at hbytes
  obtain ⟨-, -, -, -, hdata⟩ := hbytes
  rw [ModuleInfo.length_header, Text.length_terminated, ModuleInfo.length_nsImage,
    List.length_replicate] at hdata
  rw [ModuleInfo.dataStart, ModuleInfo.nsSizeA, ← Nat.add_assoc, ← Nat.add_assoc, ← Nat.add_assoc]
  exact hdata

end RecordAt

end Metta.BuildBoot
