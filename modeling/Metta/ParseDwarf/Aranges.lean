/-
  Metta.ParseDwarf.Aranges — the address ranges of
  tools/parsedwarf/dwarf_aranges.cpp.

  The section is a row of sets, each with a header, the ranges and a pair of
  zeros.  The look-up goes through all of them in one loop; the end of a range
  is computed in 32 bits.

    • `lookup` — the look-up, `encode` — a section as it should be,
    • `lookup_encode` — the set that the look-up finds,
    • `lookup_finds_iff` — when it is the first one that has the address.
-/
import Metta.ParseDwarf.Lines

namespace Metta.ParseDwarf

open Metta.Machine Decoder

/-! ## §1. The look-up. -/

/-- `aranges_set_header_t`. -/
structure ArangesSetHeader where
  unitLength : UInt32
  version : UInt16
  debugInfoOffset : UInt32
  addressSize : UInt8
  segmentSize : UInt8
  unknownData : UInt32
  deriving DecidableEq, Repr

/-- `aranges_set_header_t::decode`. -/
def ArangesSetHeader.decode : Decoder Trouble ArangesSetHeader := do
  let unitLength ← decodeUnitLength
  let version ← word16
  let debugInfoOffset ← word32
  let addressSize ← byte
  let segmentSize ← byte
  let unknownData ← word32
  pure ⟨unitLength, version, debugInfoOffset, addressSize, segmentSize, unknownData⟩

/-- `arange_desc_t`. -/
structure ArangeDesc where
  start : UInt32
  length : UInt32
  deriving DecidableEq, Repr

namespace ArangeDesc

/-- `arange_desc_t::decode`. -/
def decode : Decoder Trouble ArangeDesc := do
  let start ← word32
  let length ← word32
  pure ⟨start, length⟩

/-- `is_last`. -/
def isLast (ad : ArangeDesc) : Bool := ad.start == 0 && ad.length == 0

/-- The comparison with the address, whose sum wraps round. -/
def includes (ad : ArangeDesc) (targetPc : UInt32) : Bool :=
  decide (ad.start ≤ targetPc) && decide (ad.start + ad.length > targetPc)

end ArangeDesc

/-- The loop of `lookup`, which has the header of the set that it is in. -/
def lookupLoop (size : Nat) (targetPc : UInt32) :
    Nat → ArangesSetHeader → Decoder Trouble (Option UInt32)
  | 0, _ => fail .going
  | n + 1, sh => do
      let offset ← position
      if offset < size then
        let ad ← ArangeDesc.decode
        if ad.isLast then
          let offset ← position
          if offset < size then
            let sh ← ArangesSetHeader.decode
            lookupLoop size targetPc n sh
          else lookupLoop size targetPc n sh
        else if ad.includes targetPc then pure (some sh.debugInfoOffset)
        else lookupLoop size targetPc n sh
      else pure none

/-- `dwarf_debug_aranges_t::lookup`: the `info_offset` when the answer is true. -/
def lookup (section' : List UInt8) (targetPc : UInt32) : Except (Fault Trouble) (Option UInt32) :=
  let decoder : Decoder Trouble (Option UInt32) := do
    let sh ← ArangesSetHeader.decode
    turns fun n => lookupLoop section'.length targetPc n sh
  (decoder section' 0).map Prod.fst

/-! ## §2. The section. -/

/-- A set of ranges, for 4-byte addresses without segments. -/
structure ArangesSet where
  version : UInt16
  debugInfoOffset : UInt32
  padding : UInt32
  ranges : List ArangeDesc
  nonzero : ∀ ad ∈ ranges, ad.isLast = false

def ArangeDesc.encode (ad : ArangeDesc) : List UInt8 := le32 ad.start.toNat ++ le32 ad.length.toNat

namespace ArangesSet

variable (set : ArangesSet)

/-- The length of the set behind the field with the length. -/
def unitLength : Nat := 12 + 8 * (set.ranges.length + 1)

def header : ArangesSetHeader :=
  ⟨UInt32.ofNat set.unitLength, set.version, set.debugInfoOffset, 4, 0, set.padding⟩

def encodeHeader : List UInt8 :=
  le32 (UInt32.ofNat set.unitLength).toNat ++ (le16 set.version.toNat ++
    (le32 set.debugInfoOffset.toNat ++ ([4] ++ ([0] ++ le32 set.padding.toNat))))

/-- The ranges and the pair of zeros. -/
def encodeRanges : List UInt8 :=
  set.ranges.flatMap ArangeDesc.encode ++ ArangeDesc.encode ⟨0, 0⟩

def encode : List UInt8 := set.encodeHeader ++ set.encodeRanges

/-- The address is in a range of the set. -/
def contains (pc : UInt32) : Bool :=
  set.ranges.any fun ad =>
    decide (ad.start.toNat ≤ pc.toNat) && decide (pc.toNat < ad.start.toNat + ad.length.toNat)

/-- The address is in a range of the set that ends below the top of the address space. -/
def containsBelow (pc : UInt32) : Bool :=
  set.ranges.any fun ad =>
    decide (ad.start.toNat ≤ pc.toNat) && decide (pc.toNat < ad.start.toNat + ad.length.toNat) &&
      decide (ad.start.toNat + ad.length.toNat < wordSize)

end ArangesSet

/-- The section with the sets. -/
def encodeSets (sets : List ArangesSet) : List UInt8 := sets.flatMap ArangesSet.encode

/-! ## §3. Reading the records. -/

variable {sets : List ArangesSet} {pc : UInt32} {o : Nat}

@[simp] theorem ArangeDesc.length_encode (ad : ArangeDesc) : ad.encode.length = 8 := rfl

@[simp] theorem ArangesSet.length_encodeHeader (set : ArangesSet) :
    set.encodeHeader.length = 16 := rfl

theorem ArangeDesc.reads (ad : ArangeDesc) (o : Nat) :
    Reads ArangeDesc.decode o ad.encode ad := by
  unfold ArangeDesc.decode ArangeDesc.encode
  exact (Reads.word32 ad.start o).bind ((Reads.word32 ad.length _).map _)

/-- A length that is not the mark of the 64-bit format. -/
theorem reads_decodeUnitLength {length : UInt32} (h : length ≠ 0xffffffff) (o : Nat) :
    Reads decodeUnitLength o (le32 length.toNat) length := by
  unfold decodeUnitLength
  apply (Reads.word32 length o).bind_last
  rw [if_neg h]
  exact Reads.pure _ _

/-- The length of a set is four modulo eight, in 32 bits, too. -/
theorem ArangesSet.unitLength_ne (set : ArangesSet) :
    UInt32.ofNat set.unitLength ≠ 0xffffffff := by
  intro h
  have hnat := congrArg UInt32.toNat h
  rw [UInt32.toNat_ofNat'] at hnat
  unfold ArangesSet.unitLength at hnat
  have hmax : (0xffffffff : UInt32).toNat = 4294967295 := rfl
  omega

theorem ArangesSet.reads_header (set : ArangesSet) (o : Nat) :
    Reads ArangesSetHeader.decode o set.encodeHeader set.header := by
  unfold ArangesSetHeader.decode ArangesSet.encodeHeader ArangesSet.header
  exact (reads_decodeUnitLength set.unitLength_ne o).bind ((Reads.word16 _ _).bind
    ((Reads.word32 _ _).bind ((Reads.byte 4 _).bind ((Reads.byte 0 _).bind
      ((Reads.word32 _ _).map _)))))

/-! ## §4. The loop. -/

/-- The set has a range that the comparison takes. -/
def ArangesSet.hits (set : ArangesSet) (pc : UInt32) : Bool :=
  set.ranges.any fun ad => ad.includes pc

/-- A turn at a range. -/
theorem lookupLoop_range (pc : UInt32) (sh : ArangesSetHeader) (n : Nat) {s : List UInt8}
    {ad : ArangeDesc} (hlies : Lies s o ad.encode) (hlast : ad.isLast = false) :
    lookupLoop s.length pc (n + 1) sh s o
      = if ad.includes pc then .ok (some sh.debugInfoOffset, o + 8)
        else lookupLoop s.length pc n sh s (o + 8) := by
  have hlt : o < s.length := by
    have := hlies.length_le (by simp [ArangeDesc.encode, le32])
    rw [ArangeDesc.length_encode] at this
    omega
  have hread := ad.reads o s hlies
  rw [lookupLoop, bind_of_ok (position_apply s o), if_pos hlt,
    bind_of_ok hread, hlast, if_neg (by decide)]
  split
  · rfl
  · rfl

/-- A turn at the pair of zeros, with another set behind it. -/
theorem lookupLoop_next {s : List UInt8} {sh : ArangesSetHeader} {set : ArangesSet} {n : Nat}
    (hlies : Lies s o (ArangeDesc.encode ⟨0, 0⟩ ++ set.encodeHeader)) :
    lookupLoop s.length pc (n + 1) sh s o
      = lookupLoop s.length pc n set.header s (o + 24) := by
  have hend := hlies.length_le (by simp [ArangeDesc.encode, le32])
  rw [List.length_append, ArangeDesc.length_encode, ArangesSet.length_encodeHeader] at hend
  have hread := ArangeDesc.reads ⟨0, 0⟩ o s hlies.left
  have hheader := set.reads_header (o + 8) s hlies.right
  rw [lookupLoop, bind_of_ok (position_apply s o), if_pos (by omega),
    bind_of_ok hread, if_pos (by decide), ArangeDesc.length_encode,
    bind_of_ok (position_apply s (o + 8)), if_pos (by omega),
    bind_of_ok hheader, ArangesSet.length_encodeHeader]

/-- The turns at the last pair of zeros. -/
theorem lookupLoop_last {s : List UInt8} {sh : ArangesSetHeader} {n : Nat}
    (hlies : Lies s o (ArangeDesc.encode ⟨0, 0⟩)) (hend : o + 8 = s.length) :
    lookupLoop s.length pc (n + 2) sh s o = .ok (none, o + 8) := by
  have hread := ArangeDesc.reads ⟨0, 0⟩ o s hlies
  rw [lookupLoop, bind_of_ok (position_apply s o), if_pos (by omega),
    bind_of_ok hread, if_pos (by decide), ArangeDesc.length_encode,
    bind_of_ok (position_apply s (o + 8)), if_neg (by omega),
    lookupLoop, bind_of_ok (position_apply s (o + 8)),
    if_neg (by omega)]
  rfl

/-- The turns at the ranges of a set: it is found, or the loop comes to its end. -/
theorem lookupLoop_ranges (pc : UInt32) (sh : ArangesSetHeader) {s : List UInt8}
    {rs : List ArangeDesc} (hrs : ∀ ad ∈ rs, ad.isLast = false) (hlies : Lies s o (rs.flatMap ArangeDesc.encode)) (n : Nat) :
    (∃ o', rs.any (fun ad => ad.includes pc) = true ∧
      lookupLoop s.length pc (n + rs.length) sh s o = .ok (some sh.debugInfoOffset, o')) ∨
    (rs.any (fun ad => ad.includes pc) = false ∧
      lookupLoop s.length pc (n + rs.length) sh s o
        = lookupLoop s.length pc n sh s (o + 8 * rs.length)) := by
  induction rs generalizing o with
  | nil => exact .inr ⟨rfl, rfl⟩
  | cons ad rs ih =>
      rw [List.flatMap_cons] at hlies
      have hturn := lookupLoop_range pc sh (n + rs.length) hlies.left
        (hrs ad List.mem_cons_self)
      rw [List.any_cons, List.length_cons, ← Nat.add_assoc, hturn]
      cases hinc : ad.includes pc with
      | true => exact .inl ⟨o + 8, rfl, if_pos rfl⟩
      | false =>
          rw [if_neg (by decide), Bool.false_or]
          have hrest := ih (fun x hx => hrs x (List.mem_cons_of_mem ad hx)) hlies.right
          rw [ArangeDesc.length_encode] at hrest
          rwa [show o + 8 * (rs.length + 1) = o + 8 + 8 * rs.length by omega]

theorem length_flatMap_encode (rs : List ArangeDesc) :
    (rs.flatMap ArangeDesc.encode).length = 8 * rs.length := by
  induction rs with
  | nil => rfl
  | cons ad rs ih =>
      rw [List.flatMap_cons, List.length_append, ih, ArangeDesc.length_encode, List.length_cons]
      omega

/-- **The loop**, from the ranges of a set on. -/
theorem lookupLoop_spec (pc : UInt32) {s : List UInt8} {set : ArangesSet} {n : Nat}
    (hlies : Lies s o (set.encodeRanges ++ encodeSets sets))
    (hend : o + (set.encodeRanges ++ encodeSets sets).length = s.length) (hn : s.length < o + n) :
    ∃ o', lookupLoop s.length pc n set.header s o
      = .ok (((set :: sets).find? fun set => set.hits pc).map ArangesSet.debugInfoOffset, o') := by
  induction sets generalizing set o n with
  | nil =>
      rw [show encodeSets [] = [] from rfl, List.append_nil] at hlies hend
      have hlen := length_flatMap_encode set.ranges
      unfold ArangesSet.encodeRanges at hlies hend
      rw [List.length_append, hlen, ArangeDesc.length_encode] at hend
      -- the fuel lasts for the ranges of the set, and for what ends the loop
      obtain ⟨m, rfl⟩ : ∃ m, n = m + 2 + set.ranges.length :=
        ⟨n - 2 - set.ranges.length, by omega⟩
      rcases lookupLoop_ranges pc set.header set.nonzero hlies.left (m + 2) with
        ⟨o', hany, hloop⟩ | ⟨hany, hloop⟩
      · -- the last set has the address
        have hhit : set.hits pc = true := hany
        refine ⟨o', ?_⟩
        rw [hloop, List.find?_cons, hhit]
        rfl
      · -- it does not, and behind its zeros the section ends
        have hzeros := hlies.right
        rw [hlen] at hzeros
        have hmiss : set.hits pc = false := hany
        refine ⟨o + 8 * set.ranges.length + 8, ?_⟩
        rw [hloop, lookupLoop_last hzeros (by omega), List.find?_cons, hmiss]
        rfl
  | cons next sets ih =>
      have hlen := length_flatMap_encode set.ranges
      have hsplit : set.encodeRanges ++ encodeSets (next :: sets)
          = set.ranges.flatMap ArangeDesc.encode
            ++ ((ArangeDesc.encode ⟨0, 0⟩ ++ next.encodeHeader)
              ++ (next.encodeRanges ++ encodeSets sets)) := by
        simp only [ArangesSet.encodeRanges, encodeSets, List.flatMap_cons, ArangesSet.encode,
          List.append_assoc]
      rw [hsplit] at hlies hend
      rw [List.length_append, List.length_append, List.length_append, hlen,
        ArangeDesc.length_encode, ArangesSet.length_encodeHeader] at hend
      obtain ⟨m, rfl⟩ : ∃ m, n = m + 1 + set.ranges.length :=
        ⟨n - 1 - set.ranges.length, by omega⟩
      rcases lookupLoop_ranges pc set.header set.nonzero hlies.left (m + 1) with
        ⟨o', hany, hloop⟩ | ⟨hany, hloop⟩
      · -- the first set has the address
        have hhit : set.hits pc = true := hany
        refine ⟨o', ?_⟩
        rw [hloop, List.find?_cons, hhit]
        rfl
      · -- the next set is found from its ranges on
        have hnext := hlies.right
        rw [hlen] at hnext
        have hranges := hnext.right
        rw [List.length_append, ArangeDesc.length_encode, ArangesSet.length_encodeHeader] at hranges
        have hmiss : set.hits pc = false := hany
        rw [hloop, lookupLoop_next hnext.left, List.find?_cons, hmiss]
        exact ih hranges (by omega) (by omega)

/-! ## §5. What is found. -/

/-- **What the look-up finds** in a section with a set: the first one that has a range that the
comparison takes. -/
theorem lookup_encode (hne : sets ≠ []) (pc : UInt32) :
    lookup (encodeSets sets) pc
      = .ok ((sets.find? fun set => set.hits pc).map ArangesSet.debugInfoOffset) := by
  obtain ⟨set, sets, rfl⟩ := List.exists_cons_of_ne_nil hne
  obtain ⟨s, hs⟩ : ∃ s, s = encodeSets (set :: sets) := ⟨_, rfl⟩
  have hall : Lies s 0 (set.encodeHeader ++ (set.encodeRanges ++ encodeSets sets)) := by
    refine ⟨[], ?_⟩
    rw [hs, List.append_nil, List.drop_zero, ← List.append_assoc]
    rfl
  have hlength : s.length = 16 + (set.encodeRanges ++ encodeSets sets).length := by
    have hsplit : s = set.encodeHeader ++ (set.encodeRanges ++ encodeSets sets) := by
      rw [hs, ← List.append_assoc]
      rfl
    rw [hsplit, List.length_append, ArangesSet.length_encodeHeader]
  have hranges := hall.right
  rw [ArangesSet.length_encodeHeader] at hranges
  obtain ⟨o', hloop⟩ := lookupLoop_spec pc (n := s.length + 1) hranges (by omega)
    (by omega)
  rw [← hs]
  show ((ArangesSetHeader.decode >>= fun sh =>
    turns fun n => lookupLoop s.length pc n sh) s 0).map Prod.fst = _
  rw [bind_of_ok (set.reads_header 0 s hall.left), ArangesSet.length_encodeHeader]
  rw [turns_apply, hloop]
  rfl

/-- A section with no set has no header, either. -/
theorem lookup_nil (pc : UInt32) : lookup (encodeSets []) pc = .error .outside := rfl

/-- **The comparison** takes the ranges with the address that end below the top of the address
space. -/
theorem ArangeDesc.includes_iff (ad : ArangeDesc) (pc : UInt32) :
    ad.includes pc = true ↔ ad.start.toNat ≤ pc.toNat ∧
      pc.toNat < ad.start.toNat + ad.length.toNat ∧
      ad.start.toNat + ad.length.toNat < wordSize := by
  have hstart := ad.start.toNat_lt
  have hlength := ad.length.toNat_lt
  unfold ArangeDesc.includes
  rw [Bool.and_eq_true, decide_eq_true_iff, decide_eq_true_iff, UInt32.le_iff_toNat_le,
    gt_iff_lt, UInt32.lt_iff_toNat_lt, UInt32.toNat_add, wordSize]
  omega

theorem ArangesSet.hits_eq (set : ArangesSet) (pc : UInt32) :
    set.hits pc = set.containsBelow pc := by
  unfold ArangesSet.hits ArangesSet.containsBelow
  congr 1
  funext ad
  rw [Bool.eq_iff_iff, ad.includes_iff]
  simp only [Bool.and_eq_true, decide_eq_true_eq, and_assoc]

/-- A set that has the address below the top has it. -/
theorem ArangesSet.contains_of_below {set : ArangesSet} (h : set.containsBelow pc = true) :
    set.contains pc = true := by
  unfold ArangesSet.containsBelow at h
  unfold ArangesSet.contains
  obtain ⟨ad, had, hin⟩ := List.any_eq_true.mp h
  exact List.any_eq_true.mpr ⟨ad, had, (Bool.and_eq_true_iff.mp hin).1⟩

/-- **The look-up is right**, with no read outside of the section, exactly when the section has a
set and the first set with the address has the same unit as the first one that has it in a range
that ends below the top of the address space. -/
theorem lookup_finds_iff (sets : List ArangesSet) (pc : UInt32) :
    lookup (encodeSets sets) pc
        = .ok ((sets.find? fun set => set.contains pc).map ArangesSet.debugInfoOffset) ↔
      sets ≠ [] ∧ ∀ set, sets.find? (fun set => set.contains pc) = some set →
        ∃ below, sets.find? (fun set => set.containsBelow pc) = some below ∧
          below.debugInfoOffset = set.debugInfoOffset := by
  by_cases hne : sets = []
  · rw [hne, lookup_nil]
    simp
  · have hhits : (fun set : ArangesSet => set.hits pc) = fun set => set.containsBelow pc :=
      funext fun set => set.hits_eq pc
    rw [lookup_encode hne, hhits, Except.ok.injEq]
    cases hcontains : sets.find? fun set => set.contains pc with
    | none =>
        -- no set has the address, in no range
        have hbelow : sets.find? (fun set => set.containsBelow pc) = none := by
          rw [List.find?_eq_none] at hcontains ⊢
          exact fun set hset h => hcontains set hset (ArangesSet.contains_of_below h)
        rw [hbelow]
        simp [hne]
    | some set =>
        cases hbelow : sets.find? fun set => set.containsBelow pc with
        | none => simp
        | some below => simp [hne]

/-- A program that goes to the top of the address space. -/
def topSet : ArangesSet := ⟨2, 0x40, 0, [⟨0xfffff000, 0x1000⟩], by decide⟩

/-- An address in it is not found. -/
theorem lookup_top_not_found :
    lookup (encodeSets [topSet]) 0xfffff800 = .ok none ∧
      (([topSet].find? fun set => set.contains 0xfffff800).map ArangesSet.debugInfoOffset)
        = some 0x40 := by
  constructor
  · rw [lookup_encode (by decide)]
    decide
  · decide

end Metta.ParseDwarf
