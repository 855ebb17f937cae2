/-
  Metta.ParseDwarf.Abbrev — the abbreviations of
  tools/parsedwarf/dwarf_abbrev.cpp and dwarf_abbrev.h.

    • `AbbrevDeclaration`, `loadAbbrevSet`, `findAbbrev` — the reader,
    • `Abbreviation`, `encodeAbbrevs` — a set and how it is written,
    • `reads_abbrevs` — a set is read as it is, up to its end,
    • `find_loaded` — and an abbreviation is found by its code.
-/
import Metta.ParseDwarf.Forms

namespace Metta.ParseDwarf

open Metta.Machine Decoder

/-! ## §1. The reader. -/

/-- `abbrev_attr_t`. -/
structure AbbrevAttr where
  name : UInt32
  form : UInt32
  deriving DecidableEq, Repr

namespace AbbrevAttr

/-- `abbrev_attr_t::decode`. -/
def decode : Decoder Trouble AbbrevAttr := do
  let name ← uleb128
  let form ← uleb128
  pure ⟨name, form⟩

/-- `is_empty`. -/
def isEmpty (a : AbbrevAttr) : Bool := a.name == 0 && a.form == 0

end AbbrevAttr

/-- `abbrev_declaration_t`; the last attribute is the empty one. -/
structure AbbrevDeclaration where
  abbreviationCode : UInt32
  tag : UInt32
  hasChildren : UInt8
  attributes : List AbbrevAttr
  deriving DecidableEq, Repr

namespace AbbrevDeclaration

/-- The loop over the attributes. -/
def decodeAttributes : Nat → Decoder Trouble (List AbbrevAttr)
  | 0 => fail .going
  | n + 1 => do
      let abbr ← AbbrevAttr.decode
      if abbr.isEmpty then pure [abbr]
      else
        let rest ← decodeAttributes n
        pure (abbr :: rest)

/-- The declaration at the end of a set.  Nothing reads what is not set in it. -/
def last : AbbrevDeclaration := ⟨0, 0, 0, []⟩

/-- `abbrev_declaration_t::decode`. -/
def decode : Decoder Trouble AbbrevDeclaration := do
  let code ← uleb128
  if code = 0 then pure last
  else
    let tag ← uleb128
    let hasChildren ← byte
    let attributes ← turns decodeAttributes
    pure ⟨code, tag, hasChildren, attributes⟩

end AbbrevDeclaration

/-- The loop of `load_abbrev_set`. -/
def loadLoop : Nat → Decoder Trouble (List AbbrevDeclaration)
  | 0 => fail .going
  | n + 1 => do
      let declaration ← AbbrevDeclaration.decode
      if declaration.abbreviationCode = 0 then pure [declaration]
      else
        let rest ← loadLoop n
        pure (declaration :: rest)

/-- `load_abbrev_set`. -/
def loadAbbrevSet : Decoder Trouble (List AbbrevDeclaration) := turns loadLoop

/-- `find_abbrev`. -/
def findAbbrev (abbrevs : List AbbrevDeclaration) (code : UInt32) : Option AbbrevDeclaration :=
  abbrevs.find? fun a => a.abbreviationCode == code

/-! ## §2. Abbreviation sets. -/

/-- The name of an attribute and the form of its values. -/
structure Attribute where
  name : Leb
  form : Leb

/-- An abbreviation. -/
structure Abbreviation where
  code : Leb
  tag : Leb
  hasChildren : Bool
  attributes : List Attribute

/-- A form that `form_reader_t::create` knows. -/
def KnownForm (form : Int) : Prop := 1 ≤ form ∧ form ≤ 0x16 ∧ form ≠ 2

namespace Attribute

def bytes (a : Attribute) : List UInt8 := a.name.bytes ++ a.form.bytes

def decl (a : Attribute) : AbbrevAttr :=
  ⟨UInt32.ofInt a.name.unsigned, UInt32.ofInt a.form.unsigned⟩

structure WellFormed (a : Attribute) : Prop where
  name : Value.Fits a.name
  form : Value.Fits a.form
  known : KnownForm a.form.unsigned

end Attribute

namespace Abbreviation

def bytes (a : Abbreviation) : List UInt8 :=
  a.code.bytes ++ (a.tag.bytes ++ ([if a.hasChildren then 1 else 0] ++
    (a.attributes.flatMap Attribute.bytes ++ [0, 0])))

def decl (a : Abbreviation) : AbbrevDeclaration where
  abbreviationCode := UInt32.ofInt a.code.unsigned
  tag := UInt32.ofInt a.tag.unsigned
  hasChildren := if a.hasChildren then 1 else 0
  attributes := a.attributes.map Attribute.decl ++ [⟨0, 0⟩]

structure WellFormed (a : Abbreviation) : Prop where
  code : Value.Fits a.code
  code_ne : a.code.unsigned ≠ 0
  tag : Value.Fits a.tag
  attributes : ∀ attr ∈ a.attributes, attr.WellFormed

end Abbreviation

/-- A set as it is written, with the zero code at its end. -/
def encodeAbbrevs (set : List Abbreviation) : List UInt8 := set.flatMap Abbreviation.bytes ++ [0]

/-- What is loaded of a set. -/
def loaded (set : List Abbreviation) : List AbbrevDeclaration :=
  set.map Abbreviation.decl ++ [.last]

/-! ## §3. Reading a set. -/

variable {o : Nat}

/-- Different numbers of 32 bits are different words. -/
theorem ofInt_inj {l l' : Leb} (h : Value.Fits l) (h' : Value.Fits l')
    (heq : UInt32.ofInt l.unsigned = UInt32.ofInt l'.unsigned) : l.unsigned = l'.unsigned := by
  rw [← toNat_ofInt l.unsigned_nonneg h.2, ← toNat_ofInt l'.unsigned_nonneg h'.2, heq]

theorem ofInt_ne_zero {l : Leb} (h : Value.Fits l) (hne : l.unsigned ≠ 0) :
    UInt32.ofInt l.unsigned ≠ 0 := by
  intro heq
  have hvalue := toNat_ofInt l.unsigned_nonneg h.2
  rw [heq] at hvalue
  exact hne hvalue.symm

/-- The number zero, in one byte. -/
theorem reads_zero (o : Nat) : Reads uleb128 o [0] 0 :=
  reads_uleb128 (l := .small 0 (by decide)) (by decide) o

theorem Attribute.reads {a : Attribute} (h : a.WellFormed) (o : Nat) :
    Reads AbbrevAttr.decode o a.bytes a.decl :=
  (reads_uleb128 h.name.1 o).bind ((reads_uleb128 h.form.1 _).map _)

/-- An attribute with a known form is not the empty one. -/
theorem Attribute.decl_not_empty {a : Attribute} (h : a.WellFormed) : a.decl.isEmpty = false := by
  have hne : a.form.unsigned ≠ 0 := by
    have := h.known.1
    omega
  have hform := ofInt_ne_zero h.form hne
  unfold AbbrevAttr.isEmpty Attribute.decl
  rw [Bool.and_eq_false_iff]
  exact .inr (by simpa using hform)

theorem reads_attributes {attrs : List Attribute} (h : ∀ a ∈ attrs, a.WellFormed) {n : Nat}
    (hn : attrs.length < n) (o : Nat) :
    Reads (AbbrevDeclaration.decodeAttributes n) o (attrs.flatMap Attribute.bytes ++ [0, 0])
      (attrs.map Attribute.decl ++ [⟨0, 0⟩]) := by
  induction attrs generalizing n o with
  | nil =>
      obtain ⟨n, rfl⟩ : ∃ m, n = m + 1 := ⟨n - 1, by omega⟩
      unfold AbbrevDeclaration.decodeAttributes
      have hempty : Reads AbbrevAttr.decode o [0, 0] ⟨0, 0⟩ :=
        (reads_zero o).bind ((reads_zero _).map _)
      apply hempty.bind_last
      rw [if_pos (by decide)]
      exact Reads.pure _ _
  | cons a attrs ih =>
      obtain ⟨n, rfl⟩ : ∃ m, n = m + 1 := ⟨n - 1, by omega⟩
      have ha := h a List.mem_cons_self
      unfold AbbrevDeclaration.decodeAttributes
      rw [List.flatMap_cons, List.append_assoc]
      apply (Attribute.reads ha o).bind
      rw [if_neg (by rw [Attribute.decl_not_empty ha]; decide)]
      exact (ih (fun x hx => h x (List.mem_cons_of_mem a hx)) (by simpa using hn) _).map _

theorem length_le_flatMap_bytes (attrs : List Attribute) :
    attrs.length ≤ (attrs.flatMap Attribute.bytes).length := by
  induction attrs with
  | nil => exact Nat.zero_le _
  | cons a attrs ih =>
      have hpos := a.name.length_bytes
      rw [List.flatMap_cons, List.length_append, Attribute.bytes, List.length_append,
        List.length_cons]
      omega

theorem Abbreviation.reads {a : Abbreviation} (h : a.WellFormed) (o : Nat) :
    Reads AbbrevDeclaration.decode o a.bytes a.decl := by
  unfold AbbrevDeclaration.decode Abbreviation.bytes
  apply (reads_uleb128 h.code.1 o).bind
  rw [if_neg (ofInt_ne_zero h.code h.code_ne)]
  apply (reads_uleb128 h.tag.1 _).bind
  apply (Reads.byte _ _).bind
  refine Reads.bind_last (Reads.turns fun n hn => ?_) (Reads.pure _ _)
  have hle := length_le_flatMap_bytes a.attributes
  rw [List.length_append] at hn
  exact reads_attributes h.attributes (by omega) _

/-- **A set** is read as it is, and nothing behind it. -/
theorem reads_abbrevs {set : List Abbreviation} (h : ∀ a ∈ set, a.WellFormed) (o : Nat) :
    Reads loadAbbrevSet o (encodeAbbrevs set) (loaded set) := by
  have hloop : ∀ n, set.length < n → ∀ o, Reads (loadLoop n) o (encodeAbbrevs set) (loaded set) := by
    induction set with
    | nil =>
        intro n hn o
        obtain ⟨n, rfl⟩ : ∃ m, n = m + 1 := ⟨n - 1, by omega⟩
        unfold loadLoop
        have hlast : Reads AbbrevDeclaration.decode o [0] .last := by
          unfold AbbrevDeclaration.decode
          apply (reads_zero o).bind_last
          rw [if_pos rfl]
          exact Reads.pure _ _
        apply hlast.bind_last
        rw [if_pos (show AbbrevDeclaration.last.abbreviationCode = 0 from rfl)]
        exact Reads.pure _ _
    | cons a set ih =>
        intro n hn o
        obtain ⟨n, rfl⟩ : ∃ m, n = m + 1 := ⟨n - 1, by omega⟩
        have ha := h a List.mem_cons_self
        unfold loadLoop encodeAbbrevs
        rw [List.flatMap_cons, List.append_assoc]
        have hne : a.decl.abbreviationCode ≠ 0 := ofInt_ne_zero ha.code ha.code_ne
        apply (Abbreviation.reads ha o).bind
        rw [if_neg hne]
        exact (ih (fun x hx => h x (List.mem_cons_of_mem a hx)) n (by simpa using hn) _).map _
  apply Reads.turns
  intro n hn
  refine hloop n (Nat.lt_of_le_of_lt ?_ hn) o
  -- every abbreviation has a byte
  have hle : set.length ≤ (set.flatMap Abbreviation.bytes).length := by
    clear h hloop hn
    induction set with
    | nil => exact Nat.zero_le _
    | cons a set ih =>
        have hpos := a.code.length_bytes
        rw [List.flatMap_cons, List.length_append, Abbreviation.bytes, List.length_append,
          List.length_cons]
        omega
  rw [encodeAbbrevs, List.length_append]
  omega

/-! ## §4. Finding an abbreviation. -/

/-- The codes are different. -/
def DistinctCodes (set : List Abbreviation) : Prop :=
  (set.map fun a => a.code.unsigned).Nodup

/-- **An abbreviation of the set** is found by its code. -/
theorem find_loaded {set : List Abbreviation} (h : ∀ a ∈ set, a.WellFormed)
    (hcodes : DistinctCodes set) {a : Abbreviation} (ha : a ∈ set) :
    findAbbrev (loaded set) (UInt32.ofInt a.code.unsigned) = some a.decl := by
  unfold findAbbrev loaded
  induction set with
  | nil => cases ha
  | cons b set ih =>
      obtain ⟨hb, hset⟩ := List.nodup_cons.mp hcodes
      rcases List.mem_cons.mp ha with rfl | hmem
      · rw [List.map_cons, List.cons_append, List.find?_cons_of_pos]
        simp [Abbreviation.decl]
      · have hne : UInt32.ofInt b.code.unsigned ≠ UInt32.ofInt a.code.unsigned := by
          intro heq
          have hsame := ofInt_inj (h b List.mem_cons_self).code
            (h a (List.mem_cons_of_mem b hmem)).code heq
          exact hb (List.mem_map.mpr ⟨a, hmem, hsame.symm⟩)
        rw [List.map_cons, List.cons_append, List.find?_cons_of_neg]
        · exact ih (fun x hx => h x (List.mem_cons_of_mem b hx)) hset hmem
        · simpa [Abbreviation.decl] using hne

end Metta.ParseDwarf
