/-
  Metta.Meddler.Emit — emit_cpp.cpp: the methods of an interface in the
  files that meddler writes, and the representation that type codes are
  made from.

  An emitter gives the text that the source puts out to its stream.  `root` is
  the name of the interface that a node was parsed in, `get_root()->name()`.

    • `emitType`, `Parameter.emitDecl` — types and parameters,
    • `Method.emitImplH`, `emitInterfaceH`, `emitInterfaceCpp`, `emitTypedefCpp`,
    • `Interface.emitMethodsImplH`, … — the recursions over the parents,
    • `Interface.renumberMethods`,
    • `Interface.typecodeRepresentation`,
    • `Lacks` — no separator of words gets into a name that is put out.
-/
import Metta.Meddler.Ast

namespace Metta.Meddler

/-! ## §1. Types. -/

/-- `map_type`; no text, if the type is not a builtin one. -/
def mapType (type : String) : String :=
  (([("int8", "int8_t"), ("int16", "int16_t"), ("int32", "int32_t"), ("int64", "int64_t"),
      ("octet", "uint8_t"), ("card16", "uint16_t"), ("card32", "uint32_t"),
      ("card64", "uint64_t"), ("float", "float"), ("double", "double"), ("boolean", "bool"),
      ("string", "const char*"), ("opaque", "void*")] : List (String × String)).lookup type).getD ""

/-- `string_escape`. -/
def stringEscape (s : String) : String :=
  String.join (s.toList.map fun c =>
    if c = '"' then "\\\"" else if c = '\n' then "\\n" else if c = '\\' then "\\\\"
    else String.singleton c)

/-- `replace_dots`. -/
def replaceDots (s : String) : String :=
  String.join (s.toList.map fun c => if c = '.' then "::" else String.singleton c)

/-- `alias_t::unqualified_name`: what is after the last dot of the type. -/
def Alias.unqualifiedName (a : Alias) : String :=
  String.ofList (a.type.text.toList.reverse.takeWhile (· ≠ '.')).reverse

/-- `emit_type`. -/
def emitType (root : Ident) (a : Alias) (fullyQualify : Bool) : String :=
  let result :=
    if a.builtin then
      let mapped := mapType a.unqualifiedName
      if mapped = "" then a.type.text else mapped
    else if a.interface then a.unqualifiedName
    else if a.local_ then
      let result := replaceDots a.type.text
      if fullyQualify then root.text ++ "::" ++ result else result
    else replaceDots a.type.text
  if a.interface then result ++ "::closure_t*"
  else if a.reference then result ++ "*"
  else result

/-- `emit_type_code_prefix`. -/
def emitTypeCodePrefix (root : Ident) (a : Alias) : String :=
  if a.builtin then
    if mapType a.unqualifiedName = "" then a.type.text else a.unqualifiedName ++ "_"
  else if a.interface then a.unqualifiedName ++ "::"
  else if a.local_ then root.text ++ "::" ++ replaceDots a.type.text ++ "_"
  else replaceDots a.type.text ++ "_"

/-! ## §2. Parameters. -/

namespace Parameter

/-- What three emitters of a parameter put out. -/
def emitDecl (root : Ident) (p : Parameter) (indentPrefix : String) (fullyQualify : Bool) :
    String :=
  indentPrefix ++ emitType root p.toAlias fullyQualify
    ++ (if p.direction ≠ .in_ then "*" else "") ++ " " ++ p.name.text

/-- `parameter_t::emit_impl_h`. -/
def emitImplH := emitDecl

/-- `parameter_t::emit_interface_h`. -/
def emitInterfaceH := emitDecl

/-- `parameter_t::emit_interface_cpp`. -/
def emitInterfaceCpp := emitDecl

/-- `directions` of `parameter_t::emit_typedef_cpp`. -/
def directions : Direction → String
  | .in_ => "input"
  | .out => "output"
  | .inout => "in_out"

/-- `parameter_t::emit_typedef_cpp`. -/
def emitTypedefCpp (root : Ident) (p : Parameter) (indentPrefix : String) : String :=
  indentPrefix ++ "\x7b \x7b " ++ emitTypeCodePrefix root p.toAlias
    ++ "type_code, operation_v1::param_mode_" ++ directions p.direction ++ " \x7d, \""
    ++ p.name.text ++ "\", \"" ++ stringEscape p.autodoc ++ "\" \x7d"

end Parameter

/-! ## §3. Methods. -/

namespace Method

/-- The type of the first result, or `void`. -/
def returnValueType (root : Ident) (m : Method) (fullyQualify : Bool) : String :=
  match m.returns with
  | [] => "void"
  | r :: _ => if m.neverReturns then "void" else emitType root r.toAlias fullyQualify

/-- Parameters and the results from the second on, with commas between them. -/
def arguments (m : Method) (emit : Parameter → String) : String :=
  String.intercalate ", " ((m.params ++ m.returns.drop 1).map emit)

/-- `method_t::emit_impl_h`. -/
def emitImplH (root : Ident) (m : Method) (indentPrefix : String) (fullyQualify : Bool) :
    String :=
  indentPrefix ++ m.returnValueType root fullyQualify ++ " (*" ++ m.name.text ++ ")("
    ++ m.parentInterface.text ++ "::closure_t* self"
    ++ String.join ((m.params ++ m.returns.drop 1).map fun p =>
        ", " ++ p.emitImplH root "" fullyQualify)
    ++ ");\n"

/-- `method_t::emit_interface_h`. -/
def emitInterfaceH (root : Ident) (m : Method) (indentPrefix : String) (fullyQualify : Bool) :
    String :=
  indentPrefix ++ m.returnValueType root fullyQualify ++ " " ++ m.name.text ++ "("
    ++ m.arguments (fun p => p.emitInterfaceH root "" fullyQualify) ++ ");\n"

/-- `method_t::emit_interface_cpp`. -/
def emitInterfaceCpp (root : Ident) (m : Method) (indentPrefix : String) (fullyQualify : Bool) :
    String :=
  let returnValueType := m.returnValueType root fullyQualify
  indentPrefix ++ returnValueType ++ "  closure_t::" ++ m.name.text ++ "("
    ++ m.arguments (fun p => p.emitInterfaceCpp root "" fullyQualify) ++ ")\n"
    ++ indentPrefix ++ "\x7b\n" ++ indentPrefix ++ "    "
    ++ (if returnValueType ≠ "void" then "return " else "")
    ++ "d_methods->" ++ m.name.text ++ "(reinterpret_cast<" ++ root.text ++ "::closure_t*>(this)"
    ++ String.join ((m.params ++ m.returns.drop 1).map fun p => ", " ++ p.name.text)
    ++ ");\n" ++ indentPrefix ++ "\x7d\n\n"

/-- `method_t::emit_typedef_cpp`. -/
def emitTypedefCpp (root : Ident) (m : Method) (indentPrefix : String) : String :=
  let rule := indentPrefix ++ "//" ++ String.ofList (List.replicate 117 '=') ++ "\n"
  let described := m.params ++ m.returns
  rule ++ indentPrefix ++ "// Operation: " ++ m.name.text ++ "\n" ++ rule ++ "\n"
    ++ (if described = [] then "" else
        indentPrefix ++ "param_t " ++ m.name.text ++ "_params[] = \x7b\n"
          ++ String.intercalate ",\n"
              (described.map fun p => p.emitTypedefCpp root (indentPrefix ++ "    "))
          ++ "\n" ++ indentPrefix ++ "\x7d;\n\n")
    ++ indentPrefix ++ "extern operation_t " ++ m.name.text ++ "_method;\n\n"
    ++ indentPrefix ++ "operation_v1::closure_t " ++ m.name.text ++ "_method_closure = \x7b\n"
    ++ indentPrefix ++ "    nullptr, /* Will be patched to &operation_ops */\n"
    ++ indentPrefix ++ "    reinterpret_cast<operation_v1::state_t*>(&" ++ m.name.text
    ++ "_method),\n"
    ++ indentPrefix ++ "\x7d;\n\n"
    ++ indentPrefix ++ "operation_t " ++ m.name.text ++ "_method = \x7b\n"
    ++ indentPrefix ++ "    \"" ++ m.name.text ++ "\", /* Name */\n"
    ++ indentPrefix ++ "    \"" ++ stringEscape m.autodoc ++ "\", // autodoc\n"
    ++ indentPrefix ++ "    operation_v1::kind_proc, /* Kind */\n"
    ++ indentPrefix ++ "    " ++ (if described = [] then "nullptr" else m.name.text ++ "_params")
    ++ ", /* Parameter list */\n"
    ++ indentPrefix ++ "    " ++ toString m.params.length ++ ", /* Number of arguments */\n"
    ++ indentPrefix ++ "    " ++ toString m.returns.length ++ ", /* Number of results */\n"
    ++ indentPrefix ++ "    " ++ toString m.methodNumber ++ ", /* Operation index */\n"
    ++ indentPrefix ++ "    nullptr, /* Array of exceptions */\n"
    ++ indentPrefix ++ "    0, /* Number of exceptions */\n"
    ++ indentPrefix ++ "    &" ++ m.name.text ++ "_method_closure /* Closure for operation */\n"
    ++ indentPrefix ++ "\x7d;\n\n"

/-- `method_t::typecode_representation`. -/
def typecodeRepresentation (m : Method) : String :=
  m.name.text ++ "("
    ++ String.join (m.params.map fun p => p.type.text ++ ";")
    ++ String.join (m.returns.map fun r => r.type.text ++ ";")
    ++ (if m.idempotent then "idempotent;" else "")
    ++ (if m.neverReturns then "never_returns;" else "")
    ++ ");"

end Method

/-! ## §4. Interfaces. -/

/-- `build_forwards`: the interface, and those that types of its methods are of. -/
def buildForwards (node : InterfaceNode) : List String :=
  (node.methods.flatMap fun m => m.params ++ m.returns).foldl
    (fun forwards p =>
      let type := p.type.text.toList
      let decl := String.ofList (type.takeWhile (· ≠ '.'))
      if '.' ∈ type ∧ decl ∉ forwards then forwards ++ [decl] else forwards)
    [node.name.text]

namespace Interface

/-- `emit_methods_impl_h`. -/
def emitMethodsImplH : Interface → String → Bool → String
  | alone node, indentPrefix, fullyQualify =>
      String.join (node.methods.map fun m =>
        m.emitImplH node.name (indentPrefix ++ "    ") fullyQualify)
  | extending node parent, indentPrefix, fullyQualify =>
      parent.emitMethodsImplH indentPrefix true
        ++ String.join (node.methods.map fun m =>
            m.emitImplH node.name (indentPrefix ++ "    ") fullyQualify)

/-- `emit_impl_h`. -/
def emitImplH (i : Interface) (indentPrefix : String) : String :=
  indentPrefix ++ "#pragma once\n\n"
    ++ String.join ((buildForwards i.node).map fun str =>
        indentPrefix ++ "namespace " ++ str ++ " \x7b struct closure_t; \x7d\n")
    ++ "\n"
    ++ (if i.node.methods ≠ [] then
        indentPrefix ++ "// ops structure should be exposed to module implementors!\n"
          ++ indentPrefix ++ "namespace " ++ i.node.name.text ++ "\n"
          ++ indentPrefix ++ "\x7b\n"
          ++ indentPrefix ++ "    struct ops_t\n"
          ++ indentPrefix ++ "    \x7b\n"
          ++ i.emitMethodsImplH indentPrefix false
          ++ indentPrefix ++ "    \x7d;\n"
          ++ indentPrefix ++ "\x7d\n"
        else "")

/-- `emit_methods_interface_h`. -/
def emitMethodsInterfaceH : Interface → String → Bool → String
  | alone node, indentPrefix, fullyQualify =>
      String.join (node.methods.map fun m =>
        m.emitInterfaceH node.name (indentPrefix ++ "        ") fullyQualify)
  | extending node parent, indentPrefix, fullyQualify =>
      parent.emitMethodsInterfaceH indentPrefix true
        ++ String.join (node.methods.map fun m =>
            m.emitInterfaceH node.name (indentPrefix ++ "        ") fullyQualify)

/-- The `closure_t` that `emit_interface_h` puts out. -/
def emitClosure (i : Interface) (indentPrefix : String) : String :=
  indentPrefix ++ "    struct closure_t \x7b\n"
    ++ indentPrefix ++ "        const " ++ i.node.name.text ++ "::ops_t* d_methods;\n"
    ++ indentPrefix ++ "        " ++ i.node.name.text ++ "::state_t* d_state;\n\n"
    ++ i.emitMethodsInterfaceH indentPrefix false
    ++ indentPrefix ++ "    \x7d;\n"

/-- `emit_methods_interface_cpp`. -/
def emitMethodsInterfaceCpp : Interface → String → Bool → String
  | alone node, indentPrefix, fullyQualify =>
      String.join (node.methods.map fun m =>
        m.emitInterfaceCpp node.name indentPrefix fullyQualify)
  | extending node parent, indentPrefix, fullyQualify =>
      parent.emitMethodsInterfaceCpp indentPrefix true
        ++ String.join (node.methods.map fun m =>
            m.emitInterfaceCpp node.name indentPrefix fullyQualify)

/-- `emit_interface_cpp`. -/
def emitInterfaceCpp (i : Interface) (indentPrefix : String) : String :=
  if i.node.methods ≠ [] then
    indentPrefix ++ "#include \"" ++ i.node.name.text ++ "_interface.h\"\n"
      ++ indentPrefix ++ "#include \"" ++ i.node.name.text ++ "_impl.h\"\n\n"
      ++ indentPrefix ++ "namespace " ++ i.node.name.text ++ "\n"
      ++ indentPrefix ++ "\x7b\n\n"
      ++ i.emitMethodsInterfaceCpp indentPrefix false
      ++ indentPrefix ++ "\x7d\n"
  else ""

/-- The loop of `renumber_methods` over the methods of one interface. -/
def renumber (lastMethod : Nat) : List Method → List Method × Nat
  | [] => ([], lastMethod)
  | m :: ms =>
      let (ms, last) := renumber (lastMethod + 1) ms
      ({ m with methodNumber := lastMethod } :: ms, last)

/-- `renumber_methods`: the interface with its methods numbered, and the next number. -/
def renumberMethods : Interface → Interface × Nat
  | alone node =>
      let (methods, last) := renumber 0 node.methods
      (alone { node with methods := methods }, last)
  | extending node parent =>
      let (parent, lastMethod) := parent.renumberMethods
      let (methods, last) := renumber lastMethod node.methods
      (extending { node with methods := methods } parent, last)

/-- The operations that `emit_typedef_cpp` describes: those of the interface itself. -/
def emitMethodTypedefs (i : Interface) (indentPrefix : String) : String :=
  String.join (i.node.methods.map fun m => m.emitTypedefCpp i.node.name indentPrefix)

/-- `typecode_representation`. -/
def typecodeRepresentation : Interface → String
  | alone node =>
      node.name.text ++ "\x7b" ++ String.join (node.methods.map Method.typecodeRepresentation)
        ++ "\x7d"
  | extending node parent =>
      node.name.text ++ "\x7b" ++ parent.typecodeRepresentation
        ++ String.join (node.methods.map Method.typecodeRepresentation) ++ "\x7d"

end Interface

/-! ## §5. Characters that are in no word. -/

/-- A character is not in a text. -/
def Lacks (c : Char) (s : String) : Prop := c ∉ s.toList

section Lacks

variable {c : Char} {s t : String}

/-- Letters that are looked at one by one. -/
theorem lacks_of_all (h : (s.toList.all fun d => d != c) = true) : Lacks c s := by
  intro hc
  have := List.all_eq_true.mp h c hc
  simp at this

/-- A word without separators. -/
theorem lacks_of_plain (h : (s.toList.all fun d => !separators.contains d) = true)
    (hc : c ∈ separators) : Lacks c s := fun hin => plain_of_all h c hin hc

theorem Lacks.append (hs : Lacks c s) (ht : Lacks c t) : Lacks c (s ++ t) := by
  intro h
  rw [String.toList_append, List.mem_append] at h
  exact h.elim hs ht

theorem Ident.lacks (w : Ident) (hc : c ∈ separators) : Lacks c w.text := fun h => w.plain _ h hc

theorem lacks_mapType (hc : c ∈ separators) (hb : c ≠ ' ') (type : String) :
    Lacks c (mapType type) := by
  have hall : (["int8_t", "int16_t", "int32_t", "int64_t", "uint8_t", "uint16_t", "uint32_t",
      "uint64_t", "float", "double", "bool", "const char*", "void*"].all fun mapped =>
        mapped.toList.all fun d => d == ' ' || !separators.contains d) = true := by decide
  unfold mapType
  cases hl : List.lookup type _ with
  | none => exact List.not_mem_nil
  | some mapped =>
      obtain ⟨l, r, heq, -⟩ := List.lookup_eq_some_iff.mp hl
      have hsnd := congrArg (List.map Prod.snd) heq
      rw [List.map_append, List.map_cons] at hsnd
      have hmapped := List.all_eq_true.mp hall mapped
        (hsnd ▸ List.mem_append_right _ (List.mem_cons_self ..))
      intro hin
      have hplain := List.all_eq_true.mp hmapped c hin
      rw [beq_eq_false_iff_ne.mpr hb, List.contains_iff_mem.mpr hc] at hplain
      cases hplain

theorem lacks_unqualifiedName (hc : c ∈ separators) (a : Alias) : Lacks c a.unqualifiedName := by
  intro h
  unfold Alias.unqualifiedName at h
  rw [String.toList_ofList, List.mem_reverse] at h
  exact a.type.lacks hc (List.mem_reverse.mp ((List.takeWhile_sublist _).subset h))

/-- A dot becomes two colons, and everything else stays. -/
theorem lacks_replaceDots (hc : c ∈ separators) (hs : Lacks c s) : Lacks c (replaceDots s) := by
  have hcolon : Lacks c "::" := lacks_of_plain rfl hc
  intro h
  unfold replaceDots at h
  rw [String.toList_join, List.mem_flatMap] at h
  obtain ⟨t, ht, hin⟩ := h
  obtain ⟨d, hd, rfl⟩ := List.mem_map.mp ht
  split at hin
  · exact hcolon hin
  · rw [String.toList_singleton, List.mem_singleton] at hin
    exact hs (hin ▸ hd)

theorem lacks_emitType (hc : c ∈ separators) (hb : c ≠ ' ') (root : Ident) (a : Alias) (q : Bool) :
    Lacks c (emitType root a q) := by
  have hcolons : Lacks c "::" := lacks_of_plain rfl hc
  have hclosure : Lacks c "::closure_t*" := lacks_of_plain rfl hc
  have hstar : Lacks c "*" := lacks_of_plain rfl hc
  -- the name of the type, before the mark of a pointer is put behind it
  have hname : ∀ s, s = a.type.text ∨ s = mapType a.unqualifiedName ∨ s = a.unqualifiedName ∨
      s = replaceDots a.type.text ∨ s = root.text ++ "::" ++ replaceDots a.type.text →
      Lacks c s := by
    rintro s (rfl | rfl | rfl | rfl | rfl)
    · exact a.type.lacks hc
    · exact lacks_mapType hc hb _
    · exact lacks_unqualifiedName hc a
    · exact lacks_replaceDots hc (a.type.lacks hc)
    · exact ((root.lacks hc).append hcolons).append (lacks_replaceDots hc (a.type.lacks hc))
  unfold emitType
  dsimp only
  generalize hs : (if a.builtin = true then _ else _ : String) = s
  have h : Lacks c s := by
    apply hname
    subst hs
    split_ifs <;> simp
  split_ifs
  · exact h.append hclosure
  · exact h.append hstar
  · exact h

theorem lacks_emitTypeCodePrefix (hc : c ∈ separators) (root : Ident) (a : Alias) :
    Lacks c (emitTypeCodePrefix root a) := by
  have hcolons : Lacks c "::" := lacks_of_plain rfl hc
  have hline : Lacks c "_" := lacks_of_plain rfl hc
  have hdots := lacks_replaceDots hc (a.type.lacks hc)
  have hlast := lacks_unqualifiedName hc a
  unfold emitTypeCodePrefix
  split_ifs
  · exact a.type.lacks hc
  · exact hlast.append hline
  · exact hlast.append hcolons
  · exact (((root.lacks hc).append hcolons).append hdots).append hline
  · exact hdots.append hline

end Lacks

end Metta.Meddler
