/-
  Metta.Meddler.TypeCodes — emit_cpp.cpp: type codes, and the tables of types.

  The type code of an interface is the MD5 digest of its representation, folded
  to 48 bits and moved up by 16.  The codes of its types count on from it, in
  the order in which the table of types lists them.  A code is put out as a
  hexadecimal literal.

    • `generateFingerprint` — the type code of a digest,
    • `emitTypeCodes`, `emitTypesTable`, `emitTypeRep` — what is put out,
    • `typeCodes`, `emitTypeCodes_eq` — the constants that are declared,
    • `readHex_toDigits` — a literal is the number that was put out,
    • `generateFingerprint_mod`, `typeCode_toNat` — codes as numbers.
-/
import Metta.Meddler.Emit

namespace Metta.Meddler

/-! ## §1. The fingerprint. -/

/-- `hash`: an MD5 digest, `MD5_DIGEST_LENGTH` bytes. -/
abbrev Digest := Vector UInt8 16

/-- `hash[i] ^= hash[j]`, for the pairs one after the other. -/
def Digest.reduce (hash : Digest) : Digest :=
  ([(0, 5), (1, 6), (2, 7), (3, 8), (4, 9), (5, 10),
    (0, 10), (1, 11), (2, 12), (3, 13), (4, 14), (5, 15)] : List (Fin 16 × Fin 16)).foldl
    (fun hash p => hash.set p.1 (hash.get p.1 ^^^ hash.get p.2)) hash

/-- `(code << 8) | b`. -/
def shiftIn (code : BitVec 64) (b : UInt8) : BitVec 64 := code <<< 8 ||| b.toBitVec.setWidth 64

/-- `generate_fingerprint`, of the digest of the representation. -/
def generateFingerprint (md5 : Digest) : BitVec 64 :=
  let hash := md5.reduce
  [hash.get 0, hash.get 1, hash.get 2, hash.get 3, hash.get 4, hash.get 5, 0, 0].foldl shiftIn 0

/-- The low 16 bits are left free. -/
theorem generateFingerprint_mod (md5 : Digest) : (generateFingerprint md5).toNat % 2 ^ 16 = 0 := by
  -- the last two bytes that are shifted in are zeros
  have hshift : ∀ x : BitVec 64, (shiftIn (shiftIn x 0) 0).toNat % 2 ^ 16 = 0 := by
    intro x
    show (((x <<< 8 ||| 0#64) <<< 8) ||| 0#64).toNat % 2 ^ 16 = 0
    rw [BitVec.or_zero, BitVec.or_zero, BitVec.toNat_shiftLeft, BitVec.toNat_shiftLeft,
      Nat.shiftLeft_eq, Nat.shiftLeft_eq]
    omega
  exact hshift _

/-- The code of the type at `i` in the table. -/
def typeCode (fp : BitVec 64) (i : Nat) : BitVec 64 := fp + BitVec.ofNat 64 (i + 1)

/-- A code of 16 bits more does not run over. -/
theorem typeCode_toNat {fp : BitVec 64} (hfp : fp.toNat % 2 ^ 16 = 0) {i : Nat}
    (hi : i < 0xffff) : (typeCode fp i).toNat = fp.toNat + (i + 1) := by
  have hlt := fp.isLt
  unfold typeCode
  rw [BitVec.toNat_add, BitVec.toNat_ofNat]
  omega

/-! ## §2. What is put out. -/

/-- `hex`: a number in hexadecimal. -/
def emitHex (n : Nat) : String := String.ofList (Nat.toDigits 16 n)

/-- A constant of the type `uint64_t`. -/
structure Constant where
  name : String
  value : BitVec 64
  deriving DecidableEq

/-- A declaration of a constant. -/
def Constant.emit (indentPrefix : String) (c : Constant) : String :=
  indentPrefix ++ "    const uint64_t " ++ c.name ++ " = 0x" ++ emitHex c.value.toNat ++ "ull;\n"

/-- The constant for the code of a type. -/
def TypeAlias.constant (t : TypeAlias) (code : BitVec 64) : Constant :=
  ⟨t.alias.name.text ++ "_type_code", code⟩

/-- The loop of `emit_interface_h` over the types, where `index` types are done. -/
def emitTypeCodesFrom (indentPrefix : String) (fp : BitVec 64) : Nat → List TypeAlias → String
  | _, [] => ""
  | index, t :: ts =>
      let index := index + 1
      if index > 0xffff then
        "#error This interface has too many subtypes, cannot generate type codes. "
          ++ "Please split this interface into smaller chunks.\n"
      else
        (t.constant (fp + BitVec.ofNat 64 index)).emit indentPrefix
          ++ emitTypeCodesFrom indentPrefix fp index ts

/-- The type codes that `emit_interface_h` puts out. -/
def emitTypeCodes (node : InterfaceNode) (md5 : Digest) (indentPrefix : String) : String :=
  let fp := generateFingerprint md5
  Constant.emit indentPrefix ⟨"type_code", fp⟩ ++ emitTypeCodesFrom indentPrefix fp 0 node.types

/-- The entries of the table of types. -/
def InterfaceNode.typesTable (node : InterfaceNode) : List String :=
  node.types.map fun t => "&" ++ t.alias.name.text ++ "_type_rep"

/-- The table of types that `emit_typedef_cpp` puts out, if there are types. -/
def emitTypesTable (node : InterfaceNode) (indentPrefix : String) : String :=
  if node.types = [] then ""
  else
    indentPrefix ++ "type_representation_t* " ++ node.name.text ++ "_types[] = \x7b\n"
      ++ String.intercalate ",\n" (node.typesTable.map fun e => indentPrefix ++ "    " ++ e)
      ++ "\n" ++ indentPrefix ++ "\x7d;\n\n"

/-- The fields `types` and `num_types` that `emit_typedef_cpp` puts out. -/
def emitTypesFields (node : InterfaceNode) (indentPrefix : String) : String :=
  indentPrefix ++ "    "
    ++ (if node.types = [] then "nullptr" else node.name.text ++ "_types") ++ ", // Types\n"
    ++ indentPrefix ++ "    " ++ toString node.types.length ++ ", // Number of types\n"

/-- The name of a type within its interface, as C++ writes it. -/
def TypeAlias.fqn (t : TypeAlias) (root : Ident) : String :=
  replaceDots (root.text ++ "." ++ t.alias.name.text)

/-- What the representation of a type has as `any`; an array or a range has none. -/
def TypeAlias.any (t : TypeAlias) (root : Ident) : Option String :=
  let state := ".ptr32value = &" ++ t.alias.name.text ++ "_state_closure"
  match t with
  | type a => some ("alias_type_code, \x7b " ++ emitTypeCodePrefix root a ++ "type_code")
  | sequence a => some ("sequence_type_code, \x7b " ++ emitTypeCodePrefix root a ++ "type_code")
  | set a => some ("set_type_code, \x7b " ++ emitTypeCodePrefix root a ++ "type_code")
  | record _ _ => some ("record_type_code, \x7b " ++ state)
  | choice _ _ _ => some ("choice_type_code, \x7b " ++ state)
  | enum _ _ => some ("enum__type_code, \x7b " ++ state)
  | array _ _ | range _ _ _ => none

/-- The representation of a type that `emit_typedef_cpp` of its class puts out. -/
def TypeAlias.emitTypeRep (t : TypeAlias) (root : Ident) (indentPrefix : String) : String :=
  match t.any root with
  | none =>
      indentPrefix ++ "#error Should emit "
        ++ (match t with | array _ _ => "array" | _ => "range") ++ " alias here...."
        ++ t.alias.name.text ++ "\n"
  | some any =>
      indentPrefix ++ "type_representation_t " ++ t.alias.name.text ++ "_type_rep = \x7b\n"
        ++ indentPrefix ++ "    \x7b type_system_v1::" ++ any ++ " \x7d \x7d,\n"
        ++ indentPrefix ++ "    \x7b types::code_type_code, \x7b " ++ t.fqn root
        ++ "_type_code \x7d \x7d,\n"
        ++ indentPrefix ++ "    \"" ++ t.alias.name.text ++ "\",\n"
        ++ indentPrefix ++ "    \"" ++ stringEscape t.alias.autodoc ++ "\", // autodoc\n"
        ++ indentPrefix ++ "    &" ++ root.text ++ "__intf_typeinfo,\n"
        ++ indentPrefix ++ "    sizeof(" ++ t.fqn root ++ ")\n"
        ++ indentPrefix ++ "\x7d;\n\n"

/-- The representation of the interface itself. -/
def emitRepresentation (node : InterfaceNode) (indentPrefix : String) : String :=
  indentPrefix ++ "    \x7b // representation\n"
    ++ indentPrefix ++ "        \x7b type_system_v1::iref_type_code, \x7b .ptr32value = &"
    ++ node.name.text ++ "_typeinfo_closure \x7d \x7d, // any\n"
    ++ indentPrefix ++ "        \x7b types::code_type_code, \x7b " ++ node.name.text
    ++ "::type_code \x7d \x7d, // code\n"
    ++ indentPrefix ++ "        \"" ++ node.name.text ++ "\", // name\n"
    ++ indentPrefix ++ "        \"" ++ stringEscape node.autodoc ++ "\", // autodoc\n"
    ++ indentPrefix ++ "        nullptr, // Will be patched to meta_interface\n"
    ++ indentPrefix ++ "        sizeof(" ++ node.name.text ++ "::closure_t*)\n"
    ++ indentPrefix ++ "    \x7d, // end representation\n"

/-! ## §3. The constants that are declared. -/

/-- The type code of the interface and those of its types. -/
def typeCodes (node : InterfaceNode) (md5 : Digest) : List Constant :=
  let fp := generateFingerprint md5
  ⟨"type_code", fp⟩ :: node.types.mapIdx fun i t => t.constant (typeCode fp i)

/-- The loop declares a constant for every type, as long as there are not too many. -/
theorem emitTypeCodesFrom_eq (indentPrefix : String) (fp : BitVec 64) (index : Nat)
    (ts : List TypeAlias) (hle : index + ts.length ≤ 0xffff) :
    emitTypeCodesFrom indentPrefix fp index ts
      = String.join ((ts.mapIdx fun i t => t.constant (typeCode fp (index + i))).map
          (Constant.emit indentPrefix)) := by
  induction ts generalizing index with
  | nil => rfl
  | cons t ts ih =>
      rw [List.length_cons] at hle
      have hindex : ¬ index + 1 > 0xffff := by omega
      rw [emitTypeCodesFrom, if_neg hindex, ih (index + 1) (by omega), List.mapIdx_cons,
        List.map_cons, String.join_cons]
      simp only [typeCode, Nat.add_zero, Nat.add_assoc, Nat.add_comm 1]

/-- **What is put out are these constants.** -/
theorem emitTypeCodes_eq (node : InterfaceNode) (md5 : Digest) (indentPrefix : String)
    (hn : node.types.length ≤ 0xffff) :
    emitTypeCodes node md5 indentPrefix
      = String.join ((typeCodes node md5).map (Constant.emit indentPrefix)) := by
  have hloop := emitTypeCodesFrom_eq indentPrefix (generateFingerprint md5) 0 node.types (by omega)
  simp only [Nat.zero_add] at hloop
  simp only [emitTypeCodes, typeCodes, hloop, List.map_cons, String.join_cons]

/-! ## §4. Literals. -/

/-- The value of a hexadecimal digit. -/
def hexDigit (c : Char) : Nat :=
  if c.isDigit then c.toNat - '0'.toNat else c.toNat - 'a'.toNat + 10

/-- The value of the digits of a literal. -/
def readHex (cs : List Char) : Nat := cs.foldl (fun value c => 16 * value + hexDigit c) 0

/-- A digit of a hexadecimal literal. -/
def isHexDigit (c : Char) : Bool := c.isDigit || ('a' ≤ c && c ≤ 'f')

theorem hexDigit_digitChar {d : Nat} (hd : d < 16) : hexDigit d.digitChar = d := by
  interval_cases d <;> rfl

theorem isHexDigit_digitChar {d : Nat} (hd : d < 16) : isHexDigit d.digitChar = true := by
  interval_cases d <;> rfl

theorem isHexDigit_toDigits (n : Nat) : ∀ c ∈ Nat.toDigits 16 n, isHexDigit c = true := by
  induction n using Nat.strong_induction_on with
  | h n ih =>
      by_cases hn : n < 16
      · rw [Nat.toDigits_of_lt_base hn]
        intro c hc
        rw [List.mem_singleton.mp hc]
        exact isHexDigit_digitChar hn
      · rw [Nat.toDigits_of_base_le (by decide) (by omega)]
        intro c hc
        rcases List.mem_append.mp hc with hc | hc
        · exact ih (n / 16) (by omega) c hc
        · rw [List.mem_singleton.mp hc]
          exact isHexDigit_digitChar (Nat.mod_lt n (by decide))

/-- **A literal is the number that was put out.** -/
theorem readHex_toDigits (n : Nat) : readHex (Nat.toDigits 16 n) = n := by
  induction n using Nat.strong_induction_on with
  | h n ih =>
      by_cases hn : n < 16
      · rw [Nat.toDigits_of_lt_base hn]
        show 16 * 0 + hexDigit n.digitChar = n
        rw [hexDigit_digitChar hn, Nat.mul_zero, Nat.zero_add]
      · have hdigit := hexDigit_digitChar (Nat.mod_lt n (by decide : 0 < 16))
        have hrest := ih (n / 16) (by omega)
        unfold readHex at hrest ⊢
        rw [Nat.toDigits_of_base_le (by decide) (by omega), List.foldl_append, hrest]
        show 16 * (n / 16) + hexDigit (n % 16).digitChar = n
        omega

end Metta.Meddler
