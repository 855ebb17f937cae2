/-
  Metta.Meddler.Grammar — whole files, and the grammar in MeddleGrammar.md.

  The grammar that is written down and the one that the parser is written for
  are not the same: the identifiers of an enumeration are in parentheses in the
  first and not in the second, and the parser does not look behind the last
  bracket.

    • `run_sound`, `run_complete` — what `run` accepts, as syntax trees,
    • `Redeclares`, `redeclarations_rejected_iff` — names that are declared twice,
    • `Documented` — the grammar of MeddleGrammar.md,
    • `parser_accepts_modules` — the parser and its own grammar,
    • `documented_grammar_differs` — the parser and the one that is written down.
-/
import Mathlib.Computability.Language
import Metta.Meddler.Interface

namespace Metta.Meddler

open Metta.Machine Attempt State

/-! ## §1. What the items of a module declare. -/

theorem filterMap_cons_toList {α β : Type} (f : α → Option β) (a : α) (as : List α) :
    (a :: as).filterMap f = (f a).toList ++ as.filterMap f := by
  rw [List.filterMap_cons]
  cases f a with
  | none => rfl
  | some b => rfl

/-- Every kind of node in the order of the source. -/
theorem foldl_add (items : List Item) : ∀ n : InterfaceNode, items.foldl InterfaceNode.add n =
    { n with
      types := n.types ++ items.filterMap fun item => item.decl?.bind Decl.typeAlias
      exceptions := n.exceptions ++ items.filterMap fun item => item.decl?.bind Decl.exceptionNode
      methods := n.methods ++
        items.filterMap fun item => item.decl?.bind (Decl.methodNode n.name) } := by
  induction items with
  | nil => intro n; simp
  | cons item items ih =>
      intro n
      rw [List.foldl_cons, ih]
      cases item with
      | autodoc line => simp [InterfaceNode.add, Item.decl?]
      | decl d =>
          simp [InterfaceNode.add, InterfaceNode.declare, filterMap_cons_toList, Item.decl?]

/-! ## §2. Before there is a tree. -/

/-- A parser that has read documentation and modifiers only, and goes on with `w`. -/
structure State.Fresh (s : State) (w : List Lexeme) : Prop where
  reads : s.Reads w
  symbols : s.symbols = .populated
  isIdempotent : s.isIdempotent = false
  errors : s.errors = []

/-- The module is in the tree; some of its modifiers may have been there before. -/
structure State.Leaves (s : State) (m : Module) (s' : State) : Prop where
  tree : s'.parseTree.map InterfaceNode.bare = some { m.tree with
    isLocal := s.isLocal || m.tree.isLocal, isFinal := s.isFinal || m.tree.isFinal }
  errors : s'.errors = []

/-- The state behind the name of the interface. -/
def State.begun (s : State) (name : Ident) : State :=
  { s with
    autodocBuffer := ""
    parseTree := some ⟨name, s.autodocBuffer, s.isLocal, s.isFinal, .empty, [], [], [], []⟩
    symbols := s.symbols.insert name .interfaceType }

section Named

variable {s s' : State} {w r : List Lexeme}

theorem State.Fresh.grown (hs : s.Fresh w) : s.symbols.Grown := by
  rw [hs.symbols]
  exact SymbolTable.grown_populated

theorem State.Fresh.readAt {x : Lexeme} (hs : s.Fresh (x :: r)) : (s.readAt (x :: r)).Fresh r :=
  ⟨reads_readAt _ _ _, hs.symbols, hs.isIdempotent, hs.errors⟩

/-- From behind the name on there is a tree. -/
theorem State.Fresh.begun {name : Ident} (hs : s.Fresh (.word name :: r)) :
    ((s.readAt (.word name :: r)).begun name).Reading r := by
  refine ⟨.inl ⟨rfl, rfl⟩, ?_, rfl⟩
  exact hs.grown.insert name (.inr (.inl rfl))

theorem State.Fresh.begun_symbols (hs : s.Fresh w) (name : Ident) :
    ((s.readAt w).begun name).symbols = SymbolTable.populated.insert name .interfaceType :=
  congrArg (SymbolTable.insert · name .interfaceType) hs.symbols

theorem insertChecked_apply (s : State) (key : Ident) (kind : Kind) :
    insertChecked key kind s = (some (), { s with symbols := s.symbols.insert key kind }) := by
  rw [insertChecked, read_bind, modify_bind, SymbolTable.insertChecked_eq, if_pos rfl]
  rfl

/-- The name is entered, and the tree is made. -/
theorem parseNamedInterface_eq {name : Ident} (hs : s.Fresh (.kw .interface_ :: .word name :: r))
    (hname : SymbolTable.populated.IsId name) :
    parseNamedInterface (s.readAt (.kw .interface_ :: .word name :: r)) =
      parseBraced (((s.readAt (.kw .interface_ :: .word name :: r)).readAt
        (.word name :: r)).begun name) := by
  have hk : (s.readAt (.kw .interface_ :: .word name :: r)).curKind = .kw .interface_ :=
    (kind_eq_kw hs.grown).mpr rfl
  have hid : Kind.wanted .identifier (Lexeme.kind
      (s.readAt (.kw .interface_ :: .word name :: r)).symbols (.word name)) = true := by
    rw [hs.readAt.symbols]
    exact hname
  rw [parseNamedInterface, bind_of_some (mustMatchOr_complete hk _),
    bind_of_some (expectSilently_ok hs.readAt.reads hid), read_bind,
    bind_of_some (assignAutodoc_eq _), modify_bind, bind_of_some (insertChecked_apply _ _ _)]
  rfl

theorem parseNamedInterface_begins (hs : s.Fresh w)
    (h : parseNamedInterface (s.readAt w) = (some (), s')) :
    ∃ (name : Ident) (r : List Lexeme), w = .kw .interface_ :: .word name :: r ∧
      SymbolTable.populated.IsId name := by
  obtain ⟨_, s₁, h₁, h⟩ := bind_eq_some.mp h
  obtain ⟨hk, rfl⟩ := mustMatchOr_sound h₁
  obtain ⟨r, rfl⟩ := firstKind_eq_kw hs.grown hk
  obtain ⟨_, s₂, h₂, -⟩ := bind_eq_some.mp h
  obtain ⟨x, r, rfl, hx, -⟩ := expectSilently_eq_some hs.readAt.reads (by simp) h₂
  rw [hs.readAt.symbols] at hx
  obtain ⟨name, rfl, hname⟩ := wanted_identifier hx
  exact ⟨name, r, rfl, hname⟩

/-- The tree has what the module declares. -/
theorem State.Braces.leaves {name : Ident} {base : Option Ident} {items : List Item}
    (h : ((s.readAt w).begun name).Braces base items s') (herrors : s.errors = []) :
    s.Leaves ⟨[], [], name, base, items⟩ s' := by
  refine ⟨?_, h.errors.trans herrors⟩
  rw [h.tree]
  simp [State.withBase, State.begun, State.readAt, foldl_add, InterfaceNode.bare, Module.tree]

theorem State.Leaves.readAt {m : Module} (h : (s.readAt w).Leaves m s') : s.Leaves m s' :=
  ⟨h.tree, h.errors⟩

theorem parseNamedInterface_sound (hs : s.Fresh w)
    (h : parseNamedInterface (s.readAt w) = (some (), s')) :
    (∃ (m : Module) (r : List Lexeme), m.autodoc = [] ∧ m.modifiers = [] ∧ m.Ok ∧
      w = m.tokens ++ r ∧ s.Leaves m s') ∨ s'.errors ≠ [] := by
  obtain ⟨name, r, rfl, hname⟩ := parseNamedInterface_begins hs h
  rw [parseNamedInterface_eq hs hname] at h
  rcases parseBraced_sound hs.readAt.begun hs.isIdempotent h with
    ⟨base, items, r, hbase, hitems, rfl, hbraces⟩ | hlt
  · refine .inl ⟨⟨[], [], name, base, items⟩, r, rfl, rfl, ⟨hname, ?_, ?_⟩, ?_,
      (hbraces.leaves hs.readAt.errors).readAt⟩
    · rw [hs.readAt.begun_symbols] at hbase
      exact hbase
    · rw [hs.readAt.begun_symbols] at hitems
      exact hitems
    · simp [Module.tokens, extendsTokens]
  · right
    intro herrors
    rw [errorCount, errorCount, herrors] at hlt
    exact absurd hlt (Nat.not_lt_zero _)

theorem parseNamedInterface_complete {m : Module} (hdocs : m.autodoc = []) (hmods : m.modifiers = [])
    (hok : m.Ok) (hs : s.Fresh (m.tokens ++ r)) :
    ∃ s', parseNamedInterface (s.readAt (m.tokens ++ r)) = (some (), s') ∧ s.Leaves m s' := by
  obtain ⟨docs, mods, name, base, items⟩ := m
  cases hdocs
  cases hmods
  have htokens : (⟨[], [], name, base, items⟩ : Module).tokens ++ r = .kw .interface_ ::
      .word name :: (extendsTokens base ++
        .sign .lbrace :: (items.flatMap Item.tokens ++ .sign .rbrace :: r)) := by
    simp [Module.tokens, extendsTokens]
  rw [htokens] at hs ⊢
  obtain ⟨hname, hbase, hitems⟩ := hok
  obtain ⟨s', h, hbraces⟩ := parseBraced_complete hs.readAt.begun hs.isIdempotent
    (by rw [hs.readAt.begun_symbols]; exact hbase) (by rw [hs.readAt.begun_symbols]; exact hitems)
  refine ⟨s', ?_, (hbraces.leaves hs.readAt.errors).readAt⟩
  rw [parseNamedInterface_eq hs hname]
  exact h

end Named

/-! ## §3. Modifiers and documentation. -/

/-- The state with the flag of a modifier set. -/
def State.modified (s : State) : Modifier → State
  | .local_ => { s with isLocal := true }
  | .final_ => { s with isFinal := true }

section Modifiers

variable {s s' : State} {w r : List Lexeme}

theorem State.Fresh.modified (hs : s.Fresh w) (x : Modifier) : (s.modified x).Fresh w := by
  obtain ⟨hreads, hsymbols, hidem, herrors⟩ := hs
  cases x with
  | local_ => exact ⟨hreads, hsymbols, hidem, herrors⟩
  | final_ => exact ⟨hreads, hsymbols, hidem, herrors⟩

theorem State.Leaves.modified {m : Module} {x : Modifier} (h : (s.modified x).Leaves m s') :
    s.Leaves { m with modifiers := x :: m.modifiers } s' := by
  refine ⟨?_, h.errors⟩
  rw [h.tree]
  cases x with
  | local_ => simp [State.modified, Module.tree]
  | final_ => simp [State.modified, Module.tree]

/-- One call of `parse_interface` for a modifier. -/
theorem interfaceLoop_modifier {x : Modifier} (hs : s.Fresh (.kw x.keyword :: r)) (fuel : Nat) :
    interfaceLoop (fuel + 1) (s.readAt (.kw x.keyword :: r)) =
      interfaceLoop fuel (((s.readAt (.kw x.keyword :: r)).modified x).readAt r) := by
  have hk : (s.readAt (.kw x.keyword :: r)).curKind = .kw x.keyword :=
    (kind_eq_kw hs.grown).mpr rfl
  have hlex := lex_eq (hs.readAt.modified x).reads
  rw [interfaceLoop, bind_of_some (matches_apply _ _), hk]
  cases x with
  | local_ =>
      rw [if_pos (by simp [Modifier.keyword]), modify_bind]
      exact bind_of_some hlex
  | final_ =>
      rw [if_neg (by simp [Modifier.keyword]), bind_of_some (matches_apply _ _), hk,
        if_pos (by simp [Modifier.keyword]), modify_bind]
      exact bind_of_some hlex

/-- The first token is a modifier, or `parse_interface` goes on with the name. -/
theorem interfaceLoop_cases (hs : s.Fresh w) (fuel : Nat) :
    (∃ (x : Modifier) (r : List Lexeme), w = .kw x.keyword :: r) ∨
      interfaceLoop (fuel + 1) (s.readAt w) = parseNamedInterface (s.readAt w) := by
  by_cases hlocal : firstKind s.symbols w = .kw .local_
  · obtain ⟨r, rfl⟩ := firstKind_eq_kw hs.grown hlocal
    exact .inl ⟨.local_, r, rfl⟩
  · by_cases hfinal : firstKind s.symbols w = .kw .final_
    · obtain ⟨r, rfl⟩ := firstKind_eq_kw hs.grown hfinal
      exact .inl ⟨.final_, r, rfl⟩
    · right
      have hcur : (s.readAt w).curKind = firstKind s.symbols w := rfl
      rw [interfaceLoop, bind_of_some (matches_apply _ _), hcur, if_neg (by simpa using hlocal),
        bind_of_some (matches_apply _ _), hcur, if_neg (by simpa using hfinal)]

theorem interfaceLoop_sound (fuel : Nat) : ∀ {s : State} {w : List Lexeme}, s.Fresh w →
    interfaceLoop fuel (s.readAt w) = (some (), s') →
    (∃ (m : Module) (r : List Lexeme), m.autodoc = [] ∧ m.Ok ∧ w = m.tokens ++ r ∧ s.Leaves m s') ∨
      s'.errors ≠ [] := by
  induction fuel with
  | zero => exact fun _ h => nomatch h
  | succ fuel ih =>
      intro s w hs h
      rcases interfaceLoop_cases hs fuel with ⟨x, r, rfl⟩ | hnamed
      · rw [interfaceLoop_modifier hs] at h
        rcases ih (hs.readAt.modified x) h with ⟨m, r', hdocs, hok, rfl, hleaves⟩ | herrors
        · refine .inl ⟨{ m with modifiers := x :: m.modifiers }, r', hdocs, hok, ?_,
            hleaves.modified.readAt⟩
          simp [Module.tokens, hdocs]
        · exact .inr herrors
      · rw [hnamed] at h
        rcases parseNamedInterface_sound hs h with ⟨m, r, hdocs, -, hok, hw, hleaves⟩ | herrors
        · exact .inl ⟨m, r, hdocs, hok, hw, hleaves⟩
        · exact .inr herrors

theorem interfaceLoop_complete (mods : List Modifier) : ∀ {m : Module} {s : State} {fuel : Nat},
    m.modifiers = mods → m.autodoc = [] → m.Ok → s.Fresh (m.tokens ++ r) → mods.length < fuel →
    ∃ s', interfaceLoop fuel (s.readAt (m.tokens ++ r)) = (some (), s') ∧ s.Leaves m s' := by
  induction mods with
  | nil =>
      intro m s fuel hmods hdocs hok hs hfuel
      obtain ⟨fuel, rfl⟩ := Nat.exists_eq_succ_of_ne_zero (Nat.ne_zero_of_lt hfuel)
      obtain ⟨s', h, hleaves⟩ := parseNamedInterface_complete hdocs hmods hok hs
      refine ⟨s', ?_, hleaves⟩
      rcases interfaceLoop_cases hs fuel with ⟨x, r, hx⟩ | hnamed
      · -- the first token is `interface`
        simp only [Module.tokens, hdocs, hmods, List.map_nil, List.nil_append, List.cons_append,
          List.cons.injEq] at hx
        cases x <;> exact absurd hx.1 (by decide)
      · exact hnamed.trans h
  | cons x mods ih =>
      intro m s fuel hmods hdocs hok hs hfuel
      obtain ⟨fuel, rfl⟩ := Nat.exists_eq_succ_of_ne_zero (Nat.ne_zero_of_lt hfuel)
      have htokens : m.tokens ++ r =
          .kw x.keyword :: (({ m with modifiers := mods } : Module).tokens ++ r) := by
        simp [Module.tokens, hdocs, hmods]
      rw [htokens] at hs ⊢
      obtain ⟨s', h, hleaves⟩ := ih (m := { m with modifiers := mods }) rfl hdocs hok
        (hs.readAt.modified x) (Nat.lt_of_succ_lt_succ hfuel)
      refine ⟨s', ?_, ?_⟩
      · rw [interfaceLoop_modifier hs]
        exact h
      · have hall := hleaves.modified.readAt
        simp only [← hmods] at hall
        exact hall

end Modifiers

section Documentation

variable {s s' : State} {w r : List Lexeme}

theorem State.Leaves.documented {m : Module} {docs : String} {lines : List String}
    (h : ({ s with autodocBuffer := docs } : State).Leaves m s') :
    s.Leaves { m with autodoc := lines } s' := ⟨h.tree, h.errors⟩

/-- One line of documentation. -/
theorem topLevelLoop_autodoc (s : State) (line : String) (r : List Lexeme) (fuel : Nat) :
    ∃ docs, topLevelLoop (fuel + 1) (s.readAt (.autodoc line :: r)) =
      topLevelLoop fuel
        (({ s.readAt (.autodoc line :: r) with autodocBuffer := docs } : State).readAt r) := by
  refine ⟨appendTo s.autodocBuffer line, ?_⟩
  have hk : (s.readAt (.autodoc line :: r)).curKind = .autodoc := rfl
  have hreads : ({ s.readAt (.autodoc line :: r) with
      autodocBuffer := appendTo s.autodocBuffer line } : State).Reads r := .inl ⟨rfl, rfl⟩
  rw [topLevelLoop, read_bind, hk, if_neg (by simp), if_pos rfl,
    bind_of_some (appendAutodoc_eq _)]
  exact bind_of_some (lex_eq hreads)

theorem State.Fresh.documented (hs : s.Fresh w) (docs : String) :
    ({ s with autodocBuffer := docs } : State).Fresh w :=
  ⟨hs.reads, hs.symbols, hs.isIdempotent, hs.errors⟩

theorem topLevelLoop_sound (fuel : Nat) : ∀ {s : State} {w : List Lexeme}, s.Fresh w →
    topLevelLoop fuel (s.readAt w) = (some (), s') →
    (∃ (m : Module) (r : List Lexeme), m.Ok ∧ w = m.tokens ++ r ∧ s.Leaves m s') ∨
      s'.errors ≠ [] := by
  induction fuel with
  | zero => exact fun _ h => nomatch h
  | succ fuel ih =>
      intro s w hs h
      by_cases hdoc : firstKind s.symbols w = .autodoc
      · cases w with
        | nil => cases hdoc
        | cons x r =>
            obtain ⟨line, rfl⟩ := (kind_eq_autodoc hs.grown).mp hdoc
            obtain ⟨docs, hstep⟩ := topLevelLoop_autodoc s line r fuel
            rw [hstep] at h
            rcases ih (hs.readAt.documented docs) h with ⟨m, r', hok, rfl, hleaves⟩ | herrors
            · exact .inl ⟨{ m with autodoc := line :: m.autodoc }, r', hok,
                by simp [Module.tokens], hleaves.documented.readAt⟩
            · exact .inr herrors
      · have hcur : (s.readAt w).curKind = firstKind s.symbols w := rfl
        rw [topLevelLoop, read_bind, hcur] at h
        split at h
        · rw [parseInterface, read_bind] at h
          rcases interfaceLoop_sound _ hs h with ⟨m, r, -, hok, hw, hleaves⟩ | herrors
          · exact .inl ⟨m, r, hok, hw, hleaves⟩
          · exact .inr herrors
        · cases h

/-- A module without documentation begins with a modifier or with `interface`. -/
theorem Module.firstKind_tokens {m : Module} (hdocs : m.autodoc = []) (hs : s.Fresh (m.tokens ++ r)) :
    firstKind s.symbols (m.tokens ++ r) = .kw .local_ ∨
      firstKind s.symbols (m.tokens ++ r) = .kw .final_ ∨
      firstKind s.symbols (m.tokens ++ r) = .kw .interface_ := by
  have hkw : ∀ k w, firstKind s.symbols (.kw k :: w) = .kw k :=
    fun k w => (kind_eq_kw hs.grown).mpr rfl
  cases hmods : m.modifiers with
  | nil =>
      right; right
      simp only [tokens, hdocs, hmods, List.map_nil, List.nil_append, List.cons_append]
      exact hkw _ _
  | cons x mods =>
      have htokens : m.tokens ++ r =
          .kw x.keyword :: (({ m with modifiers := mods } : Module).tokens ++ r) := by
        simp [tokens, hdocs, hmods]
      rw [htokens]
      cases x with
      | local_ => exact .inl (hkw _ _)
      | final_ => exact .inr (.inl (hkw _ _))

theorem topLevelLoop_complete (lines : List String) : ∀ {m : Module} {s : State} {fuel : Nat},
    m.autodoc = lines → m.Ok → s.Fresh (m.tokens ++ r) → lines.length < fuel →
    ∃ s', topLevelLoop fuel (s.readAt (m.tokens ++ r)) = (some (), s') ∧ s.Leaves m s' := by
  induction lines with
  -- no line of documentation is left: modifiers and the interface follow
  | nil =>
      intro m s fuel hdocs hok hs hfuel
      obtain ⟨fuel, rfl⟩ := Nat.exists_eq_succ_of_ne_zero (Nat.ne_zero_of_lt hfuel)
      have hlen : m.modifiers.length < (s.readAt (m.tokens ++ r)).rest.length + 2 := by
        simp only [State.readAt, List.length_tail, Module.tokens, List.length_append,
          List.length_map, List.length_cons]
        omega
      obtain ⟨s', h, hleaves⟩ := interfaceLoop_complete m.modifiers rfl hdocs hok hs hlen
      refine ⟨s', ?_, hleaves⟩
      have hcur : (s.readAt (m.tokens ++ r)).curKind = firstKind s.symbols (m.tokens ++ r) := rfl
      rw [topLevelLoop, read_bind, hcur, if_pos (Module.firstKind_tokens hdocs hs), parseInterface,
        read_bind]
      exact h
  | cons line lines ih =>
      intro m s fuel hdocs hok hs hfuel
      obtain ⟨fuel, rfl⟩ := Nat.exists_eq_succ_of_ne_zero (Nat.ne_zero_of_lt hfuel)
      have htokens : m.tokens ++ r =
          .autodoc line :: (({ m with autodoc := lines } : Module).tokens ++ r) := by
        simp [Module.tokens, hdocs]
      rw [htokens] at hs ⊢
      obtain ⟨docs, hstep⟩ := topLevelLoop_autodoc s line
        (({ m with autodoc := lines } : Module).tokens ++ r) fuel
      obtain ⟨s', h, hleaves⟩ := ih (m := { m with autodoc := lines }) rfl hok
        (hs.readAt.documented docs) (Nat.lt_of_succ_lt_succ hfuel)
      exact ⟨s', hstep.trans h, hleaves.documented.readAt⟩

end Documentation

/-! ## §4. Runs. -/

theorem fresh_init (w : List Lexeme) : (State.init w).Fresh w := ⟨.inl ⟨rfl, rfl⟩, rfl, rfl, rfl⟩

/-- A run in terms of its loop. -/
theorem run_eq (w : List Lexeme) : run w =
    let (r, s) := topLevelLoop (w.tail.length + 2) ((State.init w).readAt w)
    ⟨r.isSome, s.parseTree, s.errors⟩ := by
  have hrun : (do lex; parseTopLevelEntities : Parse Unit) (.init w) =
      topLevelLoop (w.tail.length + 2) ((State.init w).readAt w) := by
    rw [bind_of_some (lex_eq (fresh_init w).reads), parseTopLevelEntities, read_bind, modify_bind]
    rfl
  rw [run, hrun]

/-- **What `run` accepts** without an error is written as a module is, and the tree is the one
of the module. -/
theorem run_sound {w : List Lexeme} (haccepted : (run w).accepted = true)
    (herrors : (run w).errors = []) :
    ∃ (m : Module) (r : List Lexeme), m.Ok ∧ w = m.tokens ++ r ∧
      (run w).parseTree.map InterfaceNode.bare = some m.tree := by
  rw [run_eq] at haccepted herrors ⊢
  rcases h : topLevelLoop (w.tail.length + 2) ((State.init w).readAt w) with ⟨_ | _, s'⟩
  · rw [h] at haccepted
    cases haccepted
  · rw [h] at herrors
    rcases topLevelLoop_sound _ (fresh_init w) h with ⟨m, r, hok, hw, hleaves⟩ | hne
    · exact ⟨m, r, hok, hw, hleaves.tree⟩
    · exact absurd herrors hne

/-- **What is written as a module is** gets accepted, with nothing but the module in the
tree. -/
theorem run_complete {m : Module} (hok : m.Ok) (r : List Lexeme) :
    (run (m.tokens ++ r)).accepted = true ∧ (run (m.tokens ++ r)).errors = [] ∧
      (run (m.tokens ++ r)).parseTree.map InterfaceNode.bare = some m.tree := by
  have hfuel : m.autodoc.length < (m.tokens ++ r).tail.length + 2 := by
    simp only [List.length_tail, Module.tokens, List.length_append, List.length_map,
      List.length_cons]
    omega
  obtain ⟨s', h, hleaves⟩ := topLevelLoop_complete m.autodoc rfl hok (fresh_init _) hfuel
  rw [run_eq, h]
  exact ⟨rfl, hleaves.errors, hleaves.tree⟩

/-- **The parser accepts its grammar**: a file is accepted without an error exactly when it begins
with a module, and the tree has what that module declares, in the order of the source. -/
theorem parser_accepts_modules (w : List Lexeme) :
    ((run w).accepted = true ∧ (run w).errors = [] ↔
      ∃ (m : Module) (r : List Lexeme), m.Ok ∧ w = m.tokens ++ r) ∧
    ∀ (m : Module) (r : List Lexeme), m.Ok → w = m.tokens ++ r →
      (run w).parseTree.map InterfaceNode.bare = some m.tree := by
  constructor
  · constructor
    · intro h
      obtain ⟨m, r, hok, hw, -⟩ := run_sound h.1 h.2
      exact ⟨m, r, hok, hw⟩
    · intro ⟨m, r, hok, hw⟩
      rw [hw]
      exact ⟨(run_complete hok r).1, (run_complete hok r).2.1⟩
  · intro m r hok hw
    rw [hw]
    exact (run_complete hok r).2.2

/-- A word of one letter. -/
def Ident.letter (c : Char) (h : c ∉ separators) : Ident :=
  ⟨String.singleton c, by simpa using h⟩

/-- `local interface i { enum e { a } idempotent f() returns (e x); }`. -/
def sampleModule : Module where
  autodoc := []
  modifiers := [.local_]
  name := .letter 'i' (by decide)
  base := none
  items := [.decl (.enum (.letter 'e' (by decide)) [.letter 'a' (by decide)]),
    .decl (.method
      { idempotent := 1
        name := .letter 'f' (by decide)
        args := ⟨[], false⟩
        returns := .values ⟨[⟨none, none, ⟨.letter 'e' (by decide), false⟩, .letter 'x' (by decide)⟩],
          false⟩
        raises := none })]

theorem parser_accepts_sample :
    sampleModule.Ok ∧ ((run sampleModule.tokens).accepted = true ∧
      (run sampleModule.tokens).errors = []) ∧
      (run sampleModule.tokens).parseTree.map InterfaceNode.bare = some sampleModule.tree := by
  have hok : sampleModule.Ok := by
    refine ⟨by decide, fun _ h => (nomatch h), ⟨by decide, by simp, by simp; decide⟩,
      ⟨by decide, by simp [Arguments.Ok], ?_, by simp⟩, trivial⟩
    simp only [Returns.Ok, Arguments.Ok, List.mem_singleton, forall_eq]
    exact ⟨.inl (by decide), by decide⟩
  have happ : sampleModule.tokens = sampleModule.tokens ++ [] := (List.append_nil _).symm
  exact ⟨hok, (parser_accepts_modules sampleModule.tokens).1.2 ⟨sampleModule, [], hok, happ⟩,
    (parser_accepts_modules sampleModule.tokens).2 sampleModule [] hok happ⟩

/-! ## §5. Names that are declared twice. -/

/-- The name that a declaration enters into the symbol table. -/
def Decl.declared : Decl → Option Ident
  | .exception name _ | .enum name _ | .set _ name | .range _ _ name | .type _ name
  | .sequence _ name | .array _ _ name | .record name _ | .choice name _ _ _ => some name
  | .method _ => none

/-- The names of the interface, of its types and of its exceptions. -/
def Module.declared (m : Module) : List Ident :=
  m.name :: m.items.filterMap fun item => item.decl?.bind Decl.declared

/-- The source is a module in which some name is declared twice. -/
def Redeclares (w : List Lexeme) : Prop :=
  ∃ (m : Module) (r : List Lexeme), m.Ok ∧ w = m.tokens ++ r ∧ ¬ m.declared.Nodup

/-- **`insert_checked` tells a new key from another exactly when it is new**: the iterator that
`insert` returns is never the end. -/
theorem SymbolTable.insertChecked_tells_iff (t : SymbolTable) (key : Ident) (kind : Kind) :
    (t.insertChecked key kind = true ↔ t.lookup key.text = none) ↔ t.lookup key.text = none := by
  rw [insertChecked_eq, eq_self_iff_true, true_iff]

/-- **No name that is declared twice is rejected.** -/
theorem redeclarations_rejected_iff (w : List Lexeme) :
    ((Redeclares w → (run w).accepted = false) ↔ ¬ Redeclares w) ∧
      ∀ (t : SymbolTable) (key : Ident) (kind : Kind),
        (t.insertChecked key kind = true ↔ t.lookup key.text = none) ↔
          t.lookup key.text = none := by
  refine ⟨?_, SymbolTable.insertChecked_tells_iff⟩
  constructor
  · intro h hw
    have hrejected := h hw
    obtain ⟨m, r, hok, hw, -⟩ := hw
    rw [hw, (run_complete hok r).1] at hrejected
    cases hrejected
  · intro h hw
    exact absurd hw h

/-- `interface i { enum e { a } enum e { a } }`. -/
def twoEnums : Module where
  autodoc := []
  modifiers := []
  name := .letter 'i' (by decide)
  base := none
  items := [.decl (.enum (.letter 'e' (by decide)) [.letter 'a' (by decide)]),
    .decl (.enum (.letter 'e' (by decide)) [.letter 'a' (by decide)])]

theorem two_enums_accepted :
    ¬ ∀ w, Redeclares w → (run w).accepted = false := by
  intro h
  have hok : twoEnums.Ok := by
    refine ⟨by decide, fun _ h => (nomatch h), ⟨by decide, by simp, by simp; decide⟩,
      ⟨by decide, by simp, by simp; decide⟩, trivial⟩
  have htwice : ¬ twoEnums.declared.Nodup := by
    simp [Module.declared, twoEnums, Item.decl?, Decl.declared]
  have hrejected := h (twoEnums.tokens ++ []) ⟨twoEnums, [], hok, rfl, htwice⟩
  rw [(run_complete hok []).1] at hrejected
  cases hrejected

/-! ## §6. The grammar of MeddleGrammar.md. -/

namespace Bnf

open Computability

def kw (k : Keyword) : Language Lexeme := {[.kw k]}

def sign (g : Sign) : Language Lexeme := {[.sign g]}

/-- `[ … ]`. -/
def opt (l : Language Lexeme) : Language Lexeme := 1 + l

/-- `x (',' x)*`. -/
def commaList (l : Language Lexeme) : Language Lexeme := l * (sign .comma * l)∗

/-- Documentation, where it may be. -/
def autodoc : Language Lexeme := Set.range fun line => [.autodoc line]

def cardinal : Language Lexeme := Set.range fun v => [.cardinal v]

/-- The word itself. -/
def named (a : Ident) : Language Lexeme := {[.word a]}

section Rules

-- the words that can be identifiers and types are those of the parser's own table
variable (t : SymbolTable)

def id : Language Lexeme := {w | ∃ a, t.IsId a ∧ w = [.word a]}

/-- `typeid ::= id | builtin_type`. -/
def typeid : Language Lexeme := {w | ∃ a, t.IsTypeId a ∧ w = [.word a]}

/-- `type_decl ::= typeid [reference]`. -/
def typeDecl : Language Lexeme := typeid t * opt (sign .reference)

/-- `var_decl ::= type_decl id`. -/
def varDecl : Language Lexeme := opt autodoc * typeDecl t * id t

/-- `field_list ::= (var_decl ';')*`. -/
def fieldList : Language Lexeme := (varDecl t * sign .semicolon)∗

/-- `id_list ::= '(' [ id (',' id)* ] ')'`. -/
def idList : Language Lexeme := sign .lparen * opt (commaList (id t)) * sign .rparen

/-- `argument ::= ['in'|'out'|'inout'] var_decl`. -/
def argument : Language Lexeme := opt (kw .in_ + kw .out + kw .inout) * varDecl t

/-- `argument_list ::= '(' [ argument (',' argument)* ] ')'`. -/
def argumentList : Language Lexeme := sign .lparen * opt (commaList (argument t)) * sign .rparen

/-- `method_decl ::= id argument_list ['returns' …|'never' 'returns'] ['raises' id_list] ';'`. -/
def methodDecl : Language Lexeme :=
  id t * argumentList t * opt (kw .returns * argumentList t + kw .never * kw .returns)
    * opt (kw .raises * idList t) * sign .semicolon

/-- `full_method_decl ::= idempotent_method_decl | method_decl`. -/
def fullMethodDecl : Language Lexeme := opt (kw .idempotent) * methodDecl t

/-- `exception ::= 'exception' id '{' field_list '}'`. -/
def exception (name : Ident) : Language Lexeme :=
  kw .exception_ * named name * sign .lbrace * fieldList t * sign .rbrace

/-- `range`, of which the text says that it is a number or a type. -/
def range : Language Lexeme := cardinal + id t

/-- `choice_list ::= choice_decl (',' choice_decl)*`. -/
def choiceList : Language Lexeme := commaList (id t * sign .dblarrow * typeDecl t)

/-- `typealias ::= enumdef | setdef | rangedef | typedef | sequencedef | …`. -/
def typealias (name : Ident) : Language Lexeme :=
  kw .enum * named name * sign .lbrace * idList t * sign .rbrace
    + kw .set_ * sign .less * typeid t * sign .greater * named name * sign .semicolon
    + kw .range * id t * named .dotdot * id t * named name * sign .semicolon
    + kw .type_ * id t * named name * sign .semicolon
    + kw .sequence * sign .less * typeid t * sign .greater * named name * sign .semicolon
    + kw .array * typeid t * sign .lsquare * range t * sign .rsquare * named name * sign .semicolon
    + kw .record * named name * sign .lbrace * fieldList t * sign .rbrace
    + kw .choice * named name * kw .on_ * id t * sign .lbrace * choiceList t * sign .rbrace

end Rules

/-- `interface_body ::= (exception | typealias | full_method_decl)*`; a type is known behind its
declaration. -/
inductive InterfaceBody : SymbolTable → List Lexeme → Prop where
  | nil {t : SymbolTable} : InterfaceBody t []
  | autodoc {t : SymbolTable} {line : String} {w : List Lexeme} (h : InterfaceBody t w) :
      InterfaceBody t (.autodoc line :: w)
  | exception {t : SymbolTable} {name : Ident} {u w : List Lexeme} (hname : t.IsId name)
      (hu : u ∈ exception t name) (h : InterfaceBody (t.insert name .exceptionType) w) :
      InterfaceBody t (u ++ w)
  | typealias {t : SymbolTable} {name : Ident} {u w : List Lexeme} (hname : t.IsId name)
      (hu : u ∈ typealias t name) (h : InterfaceBody (t.insert name .type) w) :
      InterfaceBody t (u ++ w)
  | method {t : SymbolTable} {u w : List Lexeme} (hu : u ∈ fullMethodDecl t)
      (h : InterfaceBody t w) : InterfaceBody t (u ++ w)

/-- `interface_decl`, behind `'local'` and `'final'` in turn. -/
inductive FullInterfaceDecl : Option Modifier → List Lexeme → Prop where
  | interface_decl {name : Ident} {u w : List Lexeme} (hname : SymbolTable.populated.IsId name)
      (hu : u ∈ opt (kw .extends_ * id (SymbolTable.populated.insert name .interfaceType)))
      (hw : InterfaceBody (SymbolTable.populated.insert name .interfaceType) w) :
      FullInterfaceDecl none
        (.kw .interface_ :: .word name :: u ++ .sign .lbrace :: w ++ [.sign .rbrace])
  | modified {x : Modifier} {last : Option Modifier} {w : List Lexeme} (hx : last ≠ some x)
      (h : FullInterfaceDecl last w) : FullInterfaceDecl (some x) (.kw x.keyword :: w)

theorem FullInterfaceDecl.getLast {last : Option Modifier} {w : List Lexeme}
    (h : FullInterfaceDecl last w) : w.getLast? = some (.sign .rbrace) := by
  induction h with
  | interface_decl hname hu hw => exact List.getLast?_concat
  | modified hx h ih =>
      rw [List.getLast?_cons, ih]
      rfl

end Bnf

/-- `module ::= full_interface_decl`, behind its documentation. -/
def Documented (w : List Lexeme) : Prop :=
  ∃ (lines : List String) (last : Option Modifier) (u : List Lexeme),
    Bnf.FullInterfaceDecl last u ∧ w = lines.map Lexeme.autodoc ++ u

/-- `interface i { enum e { ( a ) } }`. -/
def enumInParentheses : List Lexeme :=
  [.kw .interface_, .word (.letter 'i' (by decide)), .sign .lbrace, .kw .enum,
    .word (.letter 'e' (by decide)), .sign .lbrace, .sign .lparen, .word (.letter 'a' (by decide)),
    .sign .rparen, .sign .rbrace, .sign .rbrace]

/-- `interface i { } ;`. -/
def signBehind : List Lexeme :=
  [.kw .interface_, .word (.letter 'i' (by decide)), .sign .lbrace, .sign .rbrace,
    .sign .semicolon]

theorem documented_enumInParentheses : Documented enumInParentheses := by
  have hids : [Lexeme.sign .lparen] ++ [.word (.letter 'a' (by decide))] ++ [.sign .rparen] ∈
      Bnf.idList (SymbolTable.populated.insert (.letter 'i' (by decide)) .interfaceType) := by
    refine Language.append_mem_mul (Language.append_mem_mul rfl (.inr ?_)) rfl
    have ha : [Lexeme.word (.letter 'a' (by decide))] ∈
        Bnf.id (SymbolTable.populated.insert (.letter 'i' (by decide)) .interfaceType) :=
      ⟨.letter 'a' (by decide), by decide, rfl⟩
    exact Language.append_mem_mul ha (Language.nil_mem_kstar _)
  have henum : [Lexeme.kw .enum] ++ [.word (.letter 'e' (by decide))] ++ [.sign .lbrace] ++
      ([Lexeme.sign .lparen] ++ [.word (.letter 'a' (by decide))] ++ [.sign .rparen]) ++
      [.sign .rbrace] ∈
        Bnf.typealias (SymbolTable.populated.insert (.letter 'i' (by decide)) .interfaceType)
          (.letter 'e' (by decide)) := by
    refine .inl (.inl (.inl (.inl (.inl (.inl (.inl ?_))))))
    exact Language.append_mem_mul (Language.append_mem_mul (Language.append_mem_mul
      (Language.append_mem_mul rfl rfl) rfl) hids) rfl
  have hbody := Bnf.InterfaceBody.typealias (by decide) henum .nil
  exact ⟨[], none, _, .interface_decl (by decide) (.inl rfl) hbody, rfl⟩

/-- **The grammar that is written down** is not the one of the parser: it has the identifiers of
an enumeration in parentheses, which the parser does not accept, and nothing behind the last
bracket, where the parser does not look. -/
theorem documented_grammar_differs :
    (Documented enumInParentheses ∧ (run enumInParentheses).accepted = false) ∧
      (¬ Documented signBehind ∧ (run signBehind).accepted = true) := by
  refine ⟨⟨documented_enumInParentheses, by decide +kernel⟩, ?_, by decide +kernel⟩
  rintro ⟨lines, last, u, hu, hw⟩
  have hlast := hu.getLast
  have hbehind : signBehind.getLast? = some (.sign .semicolon) := rfl
  rw [hw, List.getLast?_append, hlast] at hbehind
  cases hbehind

end Metta.Meddler
