/-
  Metta.Meddler.MethodTables — the methods of an interface come out in one
  order everywhere.

  Three emitters and `renumber_methods` go over the parents of an interface, each
  on its own.  The table of an interface lists its methods from those of the root
  on; every emitter puts out the table, entry by entry, and the number of a method
  is its place in the table.

    • `table` — the methods of an interface, with where they were declared,
    • `emitMethodsImplH_eq`, … — the emitters put out the table,
    • `pointsTo_emitImplH`, … — each text is about the method of its entry,
    • `table_renumberMethods` — the numbers are the places,
    • `method_tables` — all of it together.
-/
import Metta.Meddler.Emit

namespace Metta.Meddler

namespace Interface

/-! ## §1. The table. -/

/-- A method in the table: the interface that it was declared in and whether it was declared
by a parent. -/
structure Entry where
  root : Ident
  inherited : Bool
  method : Method

/-- The entries of one interface. -/
def entriesOf (node : InterfaceNode) (inherited : Bool) : List Entry :=
  node.methods.map fun m => ⟨node.name, inherited, m⟩

/-- The methods of an interface, those of the root first. -/
def entries : Interface → Bool → List Entry
  | alone node, inherited => entriesOf node inherited
  | extending node parent, inherited => parent.entries true ++ entriesOf node inherited

/-- The methods alone. -/
def table (i : Interface) : List Method := i.levels.reverse.flatMap InterfaceNode.methods

/-- `a` is an interface that `i` extends, or `i`. -/
inductive Ancestor (a : Interface) : Interface → Prop
  | self : Ancestor a a
  | parent {node : InterfaceNode} {parent : Interface} (h : Ancestor a parent) :
      Ancestor a (extending node parent)

theorem table_extending (node : InterfaceNode) (parent : Interface) :
    (extending node parent).table = parent.table ++ node.methods := by
  simp [table, levels]

theorem map_method_entriesOf (node : InterfaceNode) (inherited : Bool) :
    (entriesOf node inherited).map Entry.method = node.methods := by
  rw [entriesOf, List.map_map]
  exact List.map_id _

/-- The entries are the methods of the table, in its order. -/
theorem map_method_entries (i : Interface) (inherited : Bool) :
    (i.entries inherited).map Entry.method = i.table := by
  induction i generalizing inherited with
  | alone node => simp [entries, map_method_entriesOf, table, levels]
  | extending node parent ih =>
      rw [entries, List.map_append, ih, map_method_entriesOf, table_extending]

theorem Ancestor.table_prefix {a i : Interface} (h : Ancestor a i) : a.table <+: i.table := by
  induction h with
  | self => exact List.prefix_rfl
  | parent h ih =>
      rw [table_extending]
      exact ih.trans (List.prefix_append ..)

/-! ## §2. The emitters put out the table. -/

/-- A recursion over the parents that puts out own methods after those of the parent. -/
theorem emit_eq_of_step (emit : Interface → Bool → String) {put : Entry → String}
    (halone : ∀ node q, emit (alone node) q = String.join ((entriesOf node q).map put))
    (hext : ∀ node parent q, emit (extending node parent) q
      = emit parent true ++ String.join ((entriesOf node q).map put)) (i : Interface) (q : Bool) :
    emit i q = String.join ((i.entries q).map put) := by
  induction i generalizing q with
  | alone node => exact halone node q
  | extending node parent ih =>
      rw [hext, ih, entries, List.map_append, String.join_append]

theorem emitMethodsImplH_eq (i : Interface) (indent : String) (q : Bool) :
    i.emitMethodsImplH indent q
      = String.join ((i.entries q).map fun e =>
          e.method.emitImplH e.root (indent ++ "    ") e.inherited) := by
  refine emit_eq_of_step (fun i q => i.emitMethodsImplH indent q) ?_ ?_ i q
  · intro node q
    simp [emitMethodsImplH, entriesOf, Function.comp_def]
  · intro node parent q
    simp [emitMethodsImplH, entriesOf, Function.comp_def]

theorem emitMethodsInterfaceH_eq (i : Interface) (indent : String) (q : Bool) :
    i.emitMethodsInterfaceH indent q
      = String.join ((i.entries q).map fun e =>
          e.method.emitInterfaceH e.root (indent ++ "        ") e.inherited) := by
  refine emit_eq_of_step (fun i q => i.emitMethodsInterfaceH indent q) ?_ ?_ i q
  · intro node q
    simp [emitMethodsInterfaceH, entriesOf, Function.comp_def]
  · intro node parent q
    simp [emitMethodsInterfaceH, entriesOf, Function.comp_def]

theorem emitMethodsInterfaceCpp_eq (i : Interface) (indent : String) (q : Bool) :
    i.emitMethodsInterfaceCpp indent q
      = String.join ((i.entries q).map fun e =>
          e.method.emitInterfaceCpp e.root indent e.inherited) := by
  refine emit_eq_of_step (fun i q => i.emitMethodsInterfaceCpp indent q) ?_ ?_ i q
  · intro node q
    simp [emitMethodsInterfaceCpp, entriesOf, Function.comp_def]
  · intro node parent q
    simp [emitMethodsInterfaceCpp, entriesOf, Function.comp_def]

/-! ## §3. The texts name their methods. -/

theorem lacks_returnValueType (root : Ident) (m : Method) (q : Bool) :
    Lacks '(' (m.returnValueType root q) := by
  unfold Method.returnValueType
  split
  · exact lacks_of_all rfl
  · split
    · exact lacks_of_all rfl
    · exact lacks_emitType (by decide) (by decide) root _ q

/-- A text is a member of `ops_t`, a pointer to a function of the name: the name is what
stands in the first bracket. -/
def PointsTo (name : Ident) (indent text : String) : Prop :=
  ∃ type params, Lacks '(' type ∧
    text = indent ++ type ++ " (*" ++ name.text ++ ")(" ++ params ++ ");\n"

/-- A text declares a method of the name. -/
def Declares (name : Ident) (indent text : String) : Prop :=
  ∃ type params, Lacks '(' type ∧ text = indent ++ type ++ " " ++ name.text ++ "(" ++ params ++ ");\n"

/-- A text is the body of a method of the name, and calls the member of the name. -/
def Forwards (name : Ident) (indent text : String) : Prop :=
  ∃ type params return_ args, Lacks '(' type ∧ (return_ = "" ∨ return_ = "return ") ∧
    text = indent ++ type ++ "  closure_t::" ++ name.text ++ "(" ++ params ++ ")\n"
      ++ indent ++ "\x7b\n" ++ indent ++ "    " ++ return_
      ++ "d_methods->" ++ name.text ++ "(" ++ args ++ ");\n" ++ indent ++ "\x7d\n\n"

/-- What follows the number of a method in its typedef. -/
def operationTail (name : Ident) (indent : String) : String :=
  indent ++ "    nullptr, /* Array of exceptions */\n"
    ++ indent ++ "    0, /* Number of exceptions */\n"
    ++ indent ++ "    &" ++ name.text ++ "_method_closure /* Closure for operation */\n"
    ++ indent ++ "\x7d;\n\n"

/-- A text ends with the typedef of the method of the name, with its number. -/
def Describes (name : Ident) (number : Nat) (indent text : String) : Prop :=
  ∃ before fields, text = before
    ++ indent ++ "operation_t " ++ name.text ++ "_method = \x7b\n"
    ++ indent ++ "    \"" ++ name.text ++ "\", /* Name */\n" ++ fields
    ++ indent ++ "    " ++ toString number ++ ", /* Operation index */\n"
    ++ operationTail name indent

theorem pointsTo_emitImplH (m : Method) (root : Ident) (indent : String) (q : Bool) :
    PointsTo m.name indent (m.emitImplH root indent q) := by
  refine ⟨m.returnValueType root q, m.parentInterface.text ++ "::closure_t* self"
    ++ String.join ((m.params ++ m.returns.drop 1).map fun p => ", " ++ p.emitImplH root "" q),
    lacks_returnValueType root m q, ?_⟩
  unfold Method.emitImplH
  simp only [String.append_assoc]

theorem declares_emitInterfaceH (m : Method) (root : Ident) (indent : String) (q : Bool) :
    Declares m.name indent (m.emitInterfaceH root indent q) :=
  ⟨_, _, lacks_returnValueType root m q, rfl⟩

theorem forwards_emitInterfaceCpp (m : Method) (root : Ident) (indent : String) (q : Bool) :
    Forwards m.name indent (m.emitInterfaceCpp root indent q) := by
  refine ⟨m.returnValueType root q, m.arguments fun p => p.emitInterfaceCpp root "" q,
    if m.returnValueType root q ≠ "void" then "return " else "",
    "reinterpret_cast<" ++ root.text ++ "::closure_t*>(this)"
      ++ String.join ((m.params ++ m.returns.drop 1).map fun p => ", " ++ p.name.text),
    lacks_returnValueType root m q, ?_, ?_⟩
  · split
    · exact .inr rfl
    · exact .inl rfl
  · have hcast : "(reinterpret_cast<" = "(" ++ "reinterpret_cast<" := by decide
    unfold Method.emitInterfaceCpp
    simp only [hcast, String.append_assoc]

theorem describes_emitTypedefCpp (m : Method) (root : Ident) (indent : String) :
    Describes m.name m.methodNumber indent (m.emitTypedefCpp root indent) := by
  unfold Method.emitTypedefCpp Describes operationTail
  dsimp only
  refine ⟨?before, indent ++ "    \"" ++ stringEscape m.autodoc ++ "\", // autodoc\n"
    ++ indent ++ "    operation_v1::kind_proc, /* Kind */\n"
    ++ indent ++ "    " ++ (if m.params ++ m.returns = [] then "nullptr"
        else m.name.text ++ "_params")
    ++ ", /* Parameter list */\n"
    ++ indent ++ "    " ++ toString m.params.length ++ ", /* Number of arguments */\n"
    ++ indent ++ "    " ++ toString m.returns.length ++ ", /* Number of results */\n", ?eq⟩
  case eq =>
    simp only [← String.append_assoc]
    rfl

/-! ## §4. Numbers. -/

/-- A method with a number. -/
def numbered (m : Method) (k : Nat) : Method := { m with methodNumber := k }

theorem renumber_eq (ms : List Method) (last : Nat) :
    renumber last ms = ((ms.zipIdx last).map fun e => numbered e.1 e.2, last + ms.length) := by
  induction ms generalizing last with
  | nil => simp [renumber]
  | cons m ms ih =>
      rw [renumber, ih (last + 1), List.zipIdx_cons, List.map_cons, List.length_cons]
      simp only [numbered, Prod.mk.injEq, true_and]
      omega

theorem renumberMethods_extending (node : InterfaceNode) (parent : Interface) :
    (extending node parent).renumberMethods
      = (extending { node with methods := (renumber parent.renumberMethods.2 node.methods).1 }
          parent.renumberMethods.1, (renumber parent.renumberMethods.2 node.methods).2) := rfl

/-- **The number of a method is its place in the table.** -/
theorem table_renumberMethods (i : Interface) :
    i.renumberMethods.1.table = i.table.zipIdx.map (fun e => numbered e.1 e.2) ∧
    i.renumberMethods.2 = i.table.length := by
  induction i with
  | alone node =>
      rw [renumberMethods, renumber_eq]
      simp [table, levels]
  | extending node parent ih =>
      obtain ⟨htable, hlast⟩ := ih
      rw [renumberMethods_extending, hlast, renumber_eq]
      simp only [table_extending, htable, List.length_append, and_true]
      rw [List.zipIdx_append, List.map_append, Nat.zero_add]

/-- The methods of the interface itself are numbered from the end of the parent on. -/
theorem node_renumberMethods (i : Interface) :
    i.renumberMethods.1.node.methods
      = (i.node.methods.zipIdx (i.table.length - i.node.methods.length)).map
          (fun e => numbered e.1 e.2) ∧
    i.renumberMethods.1.node.name = i.node.name := by
  cases i with
  | alone node =>
      rw [renumberMethods, renumber_eq]
      simp [table, levels, Interface.node]
  | extending node parent =>
      rw [renumberMethods_extending, (table_renumberMethods parent).2, renumber_eq, table_extending,
        List.length_append]
      simp [Interface.node]

/-- The methods of the interface itself are the last of the table. -/
theorem getElem?_table (i : Interface) {m : Method} {k : Nat}
    (h : (m, k) ∈ i.node.methods.zipIdx (i.table.length - i.node.methods.length)) :
    i.table[k]? = some m := by
  cases i with
  | alone node =>
      simp only [table, levels, Interface.node, List.reverse_singleton, List.flatMap_singleton,
        Nat.sub_self] at h ⊢
      exact List.mem_zipIdx_iff_getElem?.mp h
  | extending node parent =>
      rw [table_extending, List.length_append, Interface.node, Nat.add_sub_cancel] at h
      obtain ⟨hle, hlt, heq⟩ := List.mem_zipIdx h
      rw [table_extending, List.getElem?_append_right hle, List.getElem?_eq_getElem (by omega)]
      exact congrArg some heq.symm

/-! ## §5. Together. -/

/-- Every interface of the chain declares a method. -/
def Declaring (i : Interface) : Prop := ∀ node ∈ i.levels, node.methods ≠ []

theorem Declaring.node {i : Interface} (h : i.Declaring) : i.node.methods ≠ [] := by
  cases i with
  | alone node => exact h node (List.mem_singleton_self _)
  | extending node parent => exact h node (List.mem_cons_self ..)

theorem Declaring.ancestor {a i : Interface} (ha : Ancestor a i) (h : i.Declaring) :
    a.Declaring := by
  induction ha with
  | self => exact h
  | parent ha ih => exact ih fun node hnode => h node (List.mem_cons_of_mem _ hnode)

/-- What `emit_impl_h` puts out before the methods. -/
def implHead (i : Interface) (indent : String) : String :=
  indent ++ "#pragma once\n\n"
    ++ String.join ((buildForwards i.node).map fun str =>
        indent ++ "namespace " ++ str ++ " \x7b struct closure_t; \x7d\n")
    ++ "\n"
    ++ (indent ++ "// ops structure should be exposed to module implementors!\n"
    ++ indent ++ "namespace " ++ i.node.name.text ++ "\n"
    ++ indent ++ "\x7b\n"
    ++ indent ++ "    struct ops_t\n"
    ++ indent ++ "    \x7b\n")

/-- What it puts out after them. -/
def implTail (indent : String) : String :=
  indent ++ "    \x7d;\n" ++ indent ++ "\x7d\n"

/-- What `emit_interface_h` puts out of `closure_t` before the methods. -/
def closureHead (i : Interface) (indent : String) : String :=
  indent ++ "    struct closure_t \x7b\n"
    ++ indent ++ "        const " ++ i.node.name.text ++ "::ops_t* d_methods;\n"
    ++ indent ++ "        " ++ i.node.name.text ++ "::state_t* d_state;\n\n"

/-- What `emit_interface_cpp` puts out before the bodies. -/
def bodiesHead (i : Interface) (indent : String) : String :=
  indent ++ "#include \"" ++ i.node.name.text ++ "_interface.h\"\n"
    ++ indent ++ "#include \"" ++ i.node.name.text ++ "_impl.h\"\n\n"
    ++ indent ++ "namespace " ++ i.node.name.text ++ "\n"
    ++ indent ++ "\x7b\n\n"

/-- What the files of an interface list between those texts, and in which order. -/
structure Listed (i : Interface) (indent : String) : Prop where
  /-- `ops_t` has the entries. -/
  ops : i.emitImplH indent = i.implHead indent
    ++ String.join ((i.entries false).map fun e =>
        e.method.emitImplH e.root (indent ++ "    ") e.inherited) ++ implTail indent
  /-- Each as a pointer to a function of its name. -/
  opsNames : ∀ e ∈ i.entries false,
    PointsTo e.method.name (indent ++ "    ")
      (e.method.emitImplH e.root (indent ++ "    ") e.inherited)
  /-- `closure_t` has the entries. -/
  closure : i.emitClosure indent = i.closureHead indent
    ++ String.join ((i.entries false).map fun e =>
        e.method.emitInterfaceH e.root (indent ++ "        ") e.inherited)
    ++ (indent ++ "    \x7d;\n")
  /-- Each as a method of its name. -/
  closureNames : ∀ e ∈ i.entries false,
    Declares e.method.name (indent ++ "        ")
      (e.method.emitInterfaceH e.root (indent ++ "        ") e.inherited)
  /-- There is a body for each entry. -/
  bodies : i.emitInterfaceCpp indent = i.bodiesHead indent
    ++ String.join ((i.entries false).map fun e =>
        e.method.emitInterfaceCpp e.root indent e.inherited) ++ (indent ++ "\x7d\n")
  /-- It is that of the method of its name, and calls the pointer of this name. -/
  bodyNames : ∀ e ∈ i.entries false,
    Forwards e.method.name indent (e.method.emitInterfaceCpp e.root indent e.inherited)
  /-- The entries are the methods of the root, and so on down to own ones. -/
  order : (i.entries false).map Entry.method = i.levels.reverse.flatMap InterfaceNode.methods
  /-- The typedefs describe own methods, each with its place among the entries as its
  number. -/
  numbers : ∃ numbering : List (Method × Nat),
    numbering.map Prod.fst = i.node.methods ∧
    (∀ e ∈ numbering, ((i.entries false).map Entry.method)[e.2]? = some e.1) ∧
    i.renumberMethods.1.emitMethodTypedefs indent
      = String.join (numbering.map fun e =>
          (numbered e.1 e.2).emitTypedefCpp i.node.name indent) ∧
    ∀ e ∈ numbering,
      Describes e.1.name e.2 indent ((numbered e.1 e.2).emitTypedefCpp i.node.name indent)

theorem Declaring.listed {i : Interface} (h : i.Declaring) (indent : String) :
    i.Listed indent := by
  refine ⟨?_, fun e _ => pointsTo_emitImplH .., ?_, fun e _ => declares_emitInterfaceH .., ?_,
    fun e _ => forwards_emitInterfaceCpp .., map_method_entries i false, ?_⟩
  · rw [emitImplH, if_pos h.node, emitMethodsImplH_eq]
    simp only [implHead, implTail, String.append_assoc]
  · rw [emitClosure, emitMethodsInterfaceH_eq]
    simp only [closureHead, String.append_assoc]
  · rw [emitInterfaceCpp, if_pos h.node, emitMethodsInterfaceCpp_eq]
    simp only [bodiesHead, String.append_assoc]
  · refine ⟨i.node.methods.zipIdx (i.table.length - i.node.methods.length), ?_, ?_, ?_,
      fun e _ => describes_emitTypedefCpp (numbered e.1 e.2) i.node.name indent⟩
    · exact List.zipIdx_map_fst ..
    · rintro ⟨m, k⟩ he
      rw [map_method_entries]
      exact getElem?_table i he
    · rw [emitMethodTypedefs, (node_renumberMethods i).1, (node_renumberMethods i).2, List.map_map]
      rfl

/-- **The methods come out in one order everywhere**: in the files of every interface of a
chain, and those of an ancestor are the first ones of its descendants. -/
theorem method_tables (i : Interface) (h : i.Declaring) (indent : String) :
    i.Listed indent ∧
    ∀ a, Ancestor a i → a.Listed indent ∧
      (a.entries false).map Entry.method <+: (i.entries false).map Entry.method := by
  refine ⟨h.listed indent, fun a ha => ⟨(h.ancestor ha).listed indent, ?_⟩⟩
  rw [map_method_entries, map_method_entries]
  exact ha.table_prefix

theorem plain_a : ∀ c ∈ "a".toList, c ∉ separators := plain_of_all (by decide)

theorem plain_b : ∀ c ∈ "b".toList, c ∉ separators := plain_of_all (by decide)

theorem plain_f : ∀ c ∈ "f".toList, c ∉ separators := plain_of_all (by decide)

theorem plain_g : ∀ c ∈ "g".toList, c ∉ separators := plain_of_all (by decide)

/-- `interface b extends a`, with one method each. -/
def sampleChain : Interface :=
  let method (name root : Ident) : Method := ⟨name, "", [], [], [], false, false, root, 0⟩
  let node (name : Ident) (ms : List Method) : InterfaceNode :=
    ⟨name, "", false, false, .empty, [], [], [], ms⟩
  let a : Ident := ⟨"a", plain_a⟩
  let b : Ident := ⟨"b", plain_b⟩
  extending (node b [method ⟨"g", plain_g⟩ b]) (alone (node a [method ⟨"f", plain_f⟩ a]))

/-- The methods of two interfaces. -/
theorem method_tables_two_levels :
    (sampleChain.entries false).map (fun e => e.method.name.text) = ["f", "g"] ∧
    sampleChain.Listed "" := by
  refine ⟨by decide, (method_tables sampleChain ?_ "").1⟩
  intro node hnode
  simp only [sampleChain, levels, List.mem_cons, List.not_mem_nil, or_false] at hnode
  rcases hnode with rfl | rfl
  · exact List.cons_ne_nil _ _
  · exact List.cons_ne_nil _ _

end Interface

end Metta.Meddler
