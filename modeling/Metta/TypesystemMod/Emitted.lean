/-
  Metta.TypesystemMod.Emitted — the records that meddler puts out.

  meddler counts the types of an interface from one, and adds the count to the
  type code of the interface; the macros of interface_v1_state.h take the low 16
  bits off again and count from zero in the array of types.

    • `tcodeIndex_eq`, `tcodeIntfCode_toNat` — the macros as arithmetic,
    • `Compiled` — the record of an interface, as the texts define it,
    • `Compiled.emitted` — what is in it,
    • `type_codes_decode` — a type code leads to the type that it was put out for.
-/
import Metta.TypesystemMod.Queries
import Metta.Meddler.ReadBack

namespace Metta.TypesystemMod

open Metta.Machine
open Metta.Meddler hiding Interface

/-! ## §1. The macros. -/

theorem tcodeIndex_eq (tc : Code) : tcodeIndex tc = tc.toNat % 2 ^ 16 := by
  unfold tcodeIndex tcodeMask
  rw [BitVec.toNat_and]
  exact Nat.and_two_pow_sub_one_eq_mod tc.toNat 16

/-- Both parts make up the type code. -/
theorem tcodeIntfCode_toNat (tc : Code) :
    (tcodeIntfCode tc).toNat = tc.toNat - tc.toNat % 2 ^ 16 := by
  have hapart : tcodeIntfCode tc &&& (tc &&& tcodeMask) = 0#64 := by
    unfold tcodeIntfCode
    ext i hi
    simp only [BitVec.getElem_and, BitVec.getElem_not, BitVec.getElem_zero]
    cases tc[i] <;> cases tcodeMask[i] <;> rfl
  have hboth : tcodeIntfCode tc + (tc &&& tcodeMask) = tc := by
    rw [BitVec.add_eq_or_of_and_eq_zero _ _ hapart]
    unfold tcodeIntfCode
    ext i hi
    simp only [BitVec.getElem_or, BitVec.getElem_and, BitVec.getElem_not]
    cases tc[i] <;> cases tcodeMask[i] <;> rfl
  have hindex := tcodeIndex_eq tc
  unfold tcodeIndex at hindex
  have hlt := tc.isLt
  bv_omega

/-! ## §2. Records. -/

/-- The name of a word, in bytes. -/
def nameBytes (w : Ident) : List UInt8 := w.text.toUTF8.data.toList

/-- **The record that a compiler makes of what meddler puts out** for an interface: its fields
are read from the texts, where C++ wants names to be identifiers and to be defined once.  The
entries of the array of types are the representations of these names, and their codes are the
constants that they name. -/
structure Compiled (node : InterfaceNode) (md5 : Digest) (indentPrefix : String) (b : Interface) :
    Prop where
  identifiers : ∀ name ∈ node.name.text.toList ::
    (readConstants (emitTypeCodes node md5 indentPrefix)).map Prod.fst, IsIdentifier name
  once : ((readConstants (emitTypeCodes node md5 indentPrefix)).map Prod.fst).Nodup
  code : ∃ name, readCode (emitRepresentation node indentPrefix) = some name ∧
    Denotes node (readConstants (emitTypeCodes node md5 indentPrefix)) name b.rep.code.value.toNat
  numTypes : readCount (emitTypesFields node indentPrefix) = some b.numTypes
  types : ∃ entries,
    readTable (emitTypesTable node indentPrefix) (emitTypesFields node indentPrefix)
      = some entries ∧
    List.Forall₂ (fun entry trep => ∃ t ∈ node.types, ∃ name,
      readRep (t.emitTypeRep node.name indentPrefix) = some (entry, name) ∧
      Denotes node (readConstants (emitTypeCodes node md5 indentPrefix)) name
        trep.code.value.toNat) entries b.types

/-- What is in the record of an interface. -/
structure Emitted (node : InterfaceNode) (md5 : Digest) (b : Interface) : Prop where
  code : b.rep.code.value = generateFingerprint md5
  numTypes : b.numTypes = node.types.length
  codeOfType : ∀ (i : Nat) (trep : TypeRepresentation), b.types[i]? = some trep →
    trep.code.value = Meddler.typeCode (generateFingerprint md5) i

section Compiled

variable {node : InterfaceNode} {md5 : Digest} {indentPrefix : String} {b : Interface}

/-- Names without dots are written as they are. -/
theorem replaceDots_toList {s : String} (h : '.' ∉ s.toList) : (replaceDots s).toList = s.toList := by
  unfold replaceDots
  rw [String.toList_join]
  generalize s.toList = cs at h ⊢
  induction cs with
  | nil => rfl
  | cons c cs ih =>
      rw [List.mem_cons, not_or] at h
      rw [List.map_cons, List.flatMap_cons, ih h.2, if_neg (Ne.symm h.1), String.toList_singleton]
      rfl

theorem no_dot_of_identifier {name : List Char} (h : IsIdentifier name) : '.' ∉ name := by
  intro hmem
  rcases h '.' hmem with h | h
  · exact absurd h (by decide)
  · exact absurd h (by decide)

/-- The constant of a type, with the namespace of its interface. -/
theorem fqn_toList {t : TypeAlias} {root : Ident} (hroot : '.' ∉ root.text.toList)
    (ht : '.' ∉ t.alias.name.text.toList) :
    (t.fqn root ++ "_type_code").toList
      = root.text.toList ++ "::".toList ++ (t.alias.name.text ++ "_type_code").toList := by
  have hdots : (t.fqn root).toList
      = root.text.toList ++ "::".toList ++ t.alias.name.text.toList := by
    have happ : ∀ s u : String, replaceDots (s ++ u) = replaceDots s ++ replaceDots u := by
      intro s u
      unfold replaceDots
      rw [String.toList_append, List.map_append, String.join_append]
    have hone : replaceDots "." = "::" := by decide
    unfold TypeAlias.fqn
    rw [happ, happ, hone, String.toList_append, String.toList_append, replaceDots_toList hroot,
      replaceDots_toList ht]
  rw [String.toList_append, hdots, String.toList_append, List.append_assoc]

variable (h : Compiled node md5 indentPrefix b) (hblank : Blank indentPrefix)
  (hn : node.types.length ≤ 0xffff)

include h hblank hn

/-- A name has one value. -/
theorem Compiled.value_eq {c : Constant} (hc : c ∈ typeCodes node md5) {name : List Char}
    {value : BitVec 64}
    (hname : name = node.name.text.toList ++ "::".toList ++ c.name.toList)
    (hden : Denotes node (readConstants (emitTypeCodes node md5 indentPrefix)) name value.toNat) :
    value = c.value := by
  obtain ⟨constant, heq, hmem⟩ := hden
  rw [hname] at heq
  cases List.append_cancel_left heq
  have hconstants := readConstants_emitTypeCodes hblank node md5 hn
  have hc' : (c.name.toList, c.value.toNat)
      ∈ readConstants (emitTypeCodes node md5 indentPrefix) := by
    rw [hconstants]
    exact List.mem_map.mpr ⟨c, hc, rfl⟩
  have hpair := List.inj_on_of_nodup_map h.once hmem hc' rfl
  exact BitVec.eq_of_toNat_eq (congrArg Prod.snd hpair)

theorem Compiled.no_dot {t : TypeAlias} (ht : t ∈ node.types) :
    '.' ∉ t.alias.name.text.toList := by
  obtain ⟨i, hi, rfl⟩ := List.mem_iff_getElem.mp ht
  have hmem : (node.types[i].constant (typeCode (generateFingerprint md5) i)).name.toList
      ∈ (readConstants (emitTypeCodes node md5 indentPrefix)).map Prod.fst := by
    rw [readConstants_emitTypeCodes hblank node md5 hn, List.map_map]
    exact List.mem_map.mpr ⟨_, List.mem_cons_of_mem _ (List.mem_mapIdx.mpr ⟨i, hi, rfl⟩), rfl⟩
  have hdot := no_dot_of_identifier (h.identifiers _ (List.mem_cons_of_mem _ hmem))
  intro hin
  apply hdot
  show '.' ∈ (node.types[i].alias.name.text ++ "_type_code").toList
  rw [String.toList_append]
  exact List.mem_append_left _ hin

/-- **The record holds the type codes**, and has a representation for every type. -/
theorem Compiled.emitted : Emitted node md5 b := by
  have hroot := no_dot_of_identifier (h.identifiers _ List.mem_cons_self)
  obtain ⟨entries, htable, hrows⟩ := h.types
  rw [readTable_emit hblank node] at htable
  cases htable
  refine ⟨?_, ?_, fun i trep hget => ?_⟩
  · obtain ⟨name, hread, hden⟩ := h.code
    rw [readCode_emitRepresentation hblank node] at hread
    cases hread
    have hself : (⟨"type_code", generateFingerprint md5⟩ : Constant) ∈ typeCodes node md5 :=
      List.mem_cons_self
    refine h.value_eq hblank hn hself ?_ hden
    have hcode : "::type_code".toList = "::".toList ++ "type_code".toList := by decide
    rw [String.toList_append, List.append_assoc, hcode]
  · have hnum := h.numTypes
    rw [(read_emitTypesFields hblank node).2] at hnum
    exact (Option.some.inj hnum).symm
  · -- the entry of the table, and the type whose representation has this name
    obtain ⟨hi, hrow⟩ := List.getElem?_eq_some_iff.mp hget
    have hlen := hrows.length_eq
    rw [List.length_map] at hlen
    have hi' : i < node.types.length := by omega
    obtain ⟨t, ht, name, hread, hden⟩ := hrows.get (by simpa using hi') hi
    obtain ⟨hentry, rfl⟩ := readRep_emitTypeRep hblank hread
    rw [List.get_eq_getElem, List.getElem_map] at hentry
    have hsame : node.types[i].alias.name.text = t.alias.name.text := by
      have hcut := String.toList_inj.mp hentry
      exact (String.append_left_inj _).mp hcut
    have hmem : node.types[i].constant (typeCode (generateFingerprint md5) i)
        ∈ typeCodes node md5 :=
      List.mem_cons_of_mem _ (List.mem_mapIdx.mpr ⟨i, hi', rfl⟩)
    rw [List.get_eq_getElem, hrow] at hden
    refine h.value_eq hblank hn hmem ?_ hden
    rw [fqn_toList hroot (h.no_dot hblank hn ht), ← hsame]
    rfl

end Compiled

/-! ## §3. Type codes. -/

variable {node : InterfaceNode} {md5 : Digest} {b : Interface}

theorem tcodeIndex_fingerprint (md5 : Digest) : tcodeIndex (generateFingerprint md5) = 0 := by
  rw [tcodeIndex_eq, generateFingerprint_mod]

theorem tcodeIndex_typeCode (md5 : Digest) {i : Nat} (hi : i < 0xffff) :
    tcodeIndex (typeCode (generateFingerprint md5) i) = i + 1 := by
  have hlow := generateFingerprint_mod md5
  rw [tcodeIndex_eq, typeCode_toNat hlow hi]
  omega

theorem tcodeIntfCode_typeCode (md5 : Digest) {i : Nat} (hi : i < 0xffff) :
    tcodeIntfCode (typeCode (generateFingerprint md5) i) = generateFingerprint md5 := by
  have hlow := generateFingerprint_mod md5
  apply BitVec.eq_of_toNat_eq
  rw [tcodeIntfCode_toNat, typeCode_toNat hlow hi]
  omega

/-- Every constant has an index of its own. -/
theorem index_typeCodes (node : InterfaceNode) (md5 : Digest) (hn : node.types.length ≤ 0xffff) :
    (typeCodes node md5).map (fun c => tcodeIndex c.value)
      = List.range (node.types.length + 1) := by
  unfold typeCodes
  rw [List.map_cons, List.range_succ_eq_map, tcodeIndex_fingerprint]
  congr 1
  refine List.ext_getElem (by simp) fun i hi hi' => ?_
  have hlt : i < node.types.length := by simpa using hi'
  simp only [List.getElem_map, List.getElem_mapIdx, List.getElem_range, TypeAlias.constant]
  exact tcodeIndex_typeCode md5 (by omega)

/-- The codes are pairwise distinct. -/
theorem nodup_typeCodes (node : InterfaceNode) (md5 : Digest)
    (hn : node.types.length ≤ 0xffff) : ((typeCodes node md5).map Constant.value).Nodup := by
  have hindex : (((typeCodes node md5).map Constant.value).map tcodeIndex).Nodup := by
    rw [List.map_map]
    show ((typeCodes node md5).map fun c => tcodeIndex c.value).Nodup
    rw [index_typeCodes node md5 hn]
    exact List.nodup_range
  exact List.Nodup.of_map _ hindex

/-- The macros take the code of a type to its entry in the array. -/
theorem Emitted.decode (h : Emitted node md5 b) (hn : node.types.length ≤ 0xffff) {i : Nat}
    (hi : i < node.types.length) :
    tcodeValidType (typeCode (generateFingerprint md5) i) b = true ∧
    ∃ trep, b.types[i]? = some trep ∧
      tcodeWhichType (typeCode (generateFingerprint md5) i) b = .ok trep ∧
      trep.code.value = typeCode (generateFingerprint md5) i := by
  have hindex := tcodeIndex_typeCode md5 (show i < 0xffff by omega)
  have hvalid : tcodeValidType (typeCode (generateFingerprint md5) i) b = true := by
    unfold tcodeValidType
    rw [hindex, h.numTypes]
    exact decide_eq_true hi
  have hnot : tcodeIsInterface (typeCode (generateFingerprint md5) i) = false := by
    rw [Bool.eq_false_iff]
    intro htrue
    rw [tcodeIsInterface_iff, hindex] at htrue
    cases htrue
  obtain ⟨trep, hget, hwhich⟩ := tcodeWhichType_of_valid hnot hvalid
  rw [hindex, Nat.add_sub_cancel] at hget
  exact ⟨hvalid, trep, hget, hwhich, h.codeOfType i trep hget⟩

/-- An interface "i" with a type "t", which is an alias, and an enumeration "e". -/
def sampleNode : InterfaceNode :=
  let word (s : String) (h : ∀ c ∈ s.toList, c ∉ separators) : Ident := ⟨s, h⟩
  { name := word "i" (plain_of_all (by decide)), autodoc := "", isLocal := false,
    isFinal := false, base := .empty, importedTypes := [],
    types := [.type { Alias.new with name := word "t" (plain_of_all (by decide)) },
      .enum { Alias.new with name := word "e" (plain_of_all (by decide)) } []],
    exceptions := [], methods := [] }

/-- The digest of the bytes 1, 2, …, 16. -/
def sampleDigest : Digest := #v[1, 2, 3, 4, 5, 6, 7, 8, 9, 10, 11, 12, 13, 14, 15, 16]

/-- The interface at `0x1000`; `0x100`, `0x200`, `0x280` and `0x300` have "i", "t", "e" and
"i.t". -/
def emittedImage : Image where
  interface a :=
    if a = 0x1000 then
      { rep := ⟨⟨0, 0⟩, ⟨0, generateFingerprint sampleDigest⟩, 0x100, 0, 4⟩,
        types := [⟨⟨0, 0⟩, ⟨0, typeCode (generateFingerprint sampleDigest) 0⟩, 0x200, 0, 4⟩,
          ⟨⟨0, 0⟩, ⟨0, typeCode (generateFingerprint sampleDigest) 1⟩, 0x280, 0, 4⟩],
        supertype := 0 }
    else ⟨⟨⟨0, 0⟩, ⟨0, 0⟩, 0x10, 0, 4⟩, [], 0⟩
  text n :=
    if n = 0x100 then ⟨[105], noNul_of_all rfl⟩
    else if n = 0x200 then ⟨[116], noNul_of_all rfl⟩
    else if n = 0x280 then ⟨[101], noNul_of_all rfl⟩
    else if n = 0x300 then ⟨[105, 46, 116], noNul_of_all rfl⟩
    else ⟨[109], noNul_of_all rfl⟩
  metaInterface := 0
  metaInterfaceClosure := 0
  aliasTypeCode := 0

theorem blank_empty : Blank "" := fun _ h => absurd h List.not_mem_nil

theorem compiled_emittedImage :
    Compiled sampleNode sampleDigest "" (emittedImage.interface 0x1000) := by
  have hconstants := readConstants_emitTypeCodes blank_empty sampleNode sampleDigest (by decide)
  have hnames : (readConstants (emitTypeCodes sampleNode sampleDigest "")).map Prod.fst
      = ["type_code".toList, "t_type_code".toList, "e_type_code".toList] := by
    rw [hconstants]
    rfl
  refine ⟨?_, ?_, ?_, (read_emitTypesFields blank_empty sampleNode).2, ?_⟩
  · rw [hnames]
    have hall : ((sampleNode.name.text.toList :: ["type_code".toList, "t_type_code".toList,
        "e_type_code".toList]).all fun name => name.all fun c => c.isAlphanum || c == '_') = true := by
      decide
    exact fun name hname => isIdentifier_of_all (List.all_eq_true.mp hall name hname)
  · rw [hnames]
    decide
  · refine ⟨_, readCode_emitRepresentation blank_empty sampleNode, "type_code".toList, rfl, ?_⟩
    rw [hconstants]
    exact List.mem_cons_self
  · refine ⟨_, readTable_emit blank_empty sampleNode, ?_⟩
    rw [hconstants]
    have ht : ∀ t ∈ sampleNode.types, ∃ any, t.any sampleNode.name = some any := by
      intro t ht
      rcases List.mem_cons.mp ht with rfl | ht
      · exact ⟨_, rfl⟩
      · cases List.mem_singleton.mp ht
        exact ⟨_, rfl⟩
    have hfirst : sampleNode.types[0] ∈ sampleNode.types := List.getElem_mem _
    have hsecond : sampleNode.types[1] ∈ sampleNode.types := List.getElem_mem _
    obtain ⟨any, hany⟩ := ht _ hfirst
    obtain ⟨any', hany'⟩ := ht _ hsecond
    refine .cons ⟨_, hfirst, _, readRep_eq blank_empty hany, "t_type_code".toList, by decide,
      List.mem_cons_of_mem _ List.mem_cons_self⟩ (.cons ⟨_, hsecond, _,
      readRep_eq blank_empty hany', "e_type_code".toList, by decide,
      List.mem_cons_of_mem _ (List.mem_cons_of_mem _ List.mem_cons_self)⟩ .nil)

end Metta.TypesystemMod
