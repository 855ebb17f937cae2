/-
  Metta.Meddler.Interface — interfaces, from behind their name to the last bracket.

  The body of an interface is a list of declarations and of documentation, each
  read with the types that are known by then.

    • `errorGrowing_bodyLoop` — errors that were reported stay,
    • `parseDeclaration_sound`, `parseDeclaration_complete` — one item,
    • `bodyLoop_sound`, `bodyLoop_complete` — the body,
    • `parseBraced_sound`, `parseBraced_complete` — with the parent and the brackets.
-/
import Metta.Meddler.Declarations

namespace Metta.Meddler

open Metta.Machine Attempt State

/-! ## §1. Errors stay. -/

theorem errorGrowing_mustMatch (k : Kind) : ErrorGrowing (mustMatch k) :=
  (errorReporting_matches k).1.bind fun _ => (reporting_pure _).1.ite grows_fail

theorem errorGrowing_orError {α : Type} {p : Parse α} (hp : ErrorGrowing p) (msg : String) :
    ErrorGrowing (p.orError msg) := fun s a s' hI h => hp s a s' hI (orError_sound h)

theorem errorGrowing_assignAutodoc : ErrorGrowing assignAutodoc := by
  intro s a s' hI h
  cases h
  exact ⟨hI, le_rfl⟩

theorem appendAutodoc_eq (s : State) : appendAutodoc s =
    (some (), { s with autodocBuffer := appendTo s.autodocBuffer s.currentAutodoc }) := rfl

theorem errorGrowing_appendAutodoc : ErrorGrowing appendAutodoc := by
  intro s a s' hI h
  rw [appendAutodoc_eq] at h
  generalize appendTo s.autodocBuffer s.currentAutodoc = docs at h
  cases h
  exact ⟨hI, le_rfl⟩

theorem errorGrowing_expectSilently (k : Kind) : ErrorGrowing (expectSilently k) :=
  (errorReporting_wantLex k).1.bind fun _ => (reporting_pure _).1.ite grows_fail

theorem errorGrowing_listUntil {α : Type} {item : Parse (α × Bool)} (hitem : ItemReporting item)
    (stop : Kind) : ErrorGrowing (listUntil stop item) := by
  intro s a s' hI h
  obtain ⟨htree, hle, -⟩ := listUntil_reporting hitem hI h
  exact ⟨htree, hle⟩

theorem itemReporting_parseArgument (defaultDir : Direction) :
    ItemReporting (parseArgument defaultDir) where
  reporting := by
    have hdirection : ErrorReporting (parseDirection defaultDir) :=
      (errorReporting_maybe _).bind fun _ => (reporting_pure _).ite
        ((errorReporting_maybe _).bind fun _ => (reporting_pure _).ite
          ((errorReporting_maybe _).bind fun _ => (reporting_pure _).ite (reporting_pure _)))
    exact hdirection.bind fun _ => (errorReporting_parseVarDecl _).bind fun _ =>
      (errorReporting_separator _ _).bind fun _ => reporting_pure _
  notDone s a s' _ h := by
    obtain ⟨d, s₁, -, h⟩ := bind_eq_some.mp h
    obtain ⟨p, s₂, -, h⟩ := bind_eq_some.mp h
    obtain ⟨_, s₃, -, h⟩ := bind_eq_some.mp h
    cases h

theorem errorGrowing_parseArgumentList (defaultDir : Direction) :
    ErrorGrowing (parseArgumentList defaultDir) :=
  (errorGrowing_listUntil (itemReporting_parseArgument defaultDir) _).bind fun _ =>
    (reporting_pure _).1.ite grows_fail

theorem errorGrowing_idLoop (delim : Kind) (fuel : Nat) : ErrorGrowing (idLoop delim fuel) := by
  induction fuel with
  | zero => exact grows_fail
  | succ fuel ih =>
      refine errorReporting_lex.1.bind fun _ => (errorReporting_matches _).1.bind fun _ =>
        Grows.ite (errorReporting_lexback.1.bind fun _ => (reporting_pure _).1) ?_
      refine errorReporting_lexback.1.bind fun _ => (errorReporting_parseId _).1.bind fun _ =>
        (errorReporting_wantLex _).1.bind fun _ => Grows.ite ?_ ?_
      · exact ih.bind fun _ => (reporting_pure _).1
      · exact (errorReporting_matches _).1.bind fun _ =>
          Grows.ite (errorReporting_lexback.1.bind fun _ => (reporting_pure _).1)
            (errorReporting_parseError _).1

theorem errorGrowing_parseIdList (delim : Kind) : ErrorGrowing (parseIdList delim) :=
  (reporting_read _).1.bind fun _ => errorGrowing_idLoop delim _

theorem errorGrowing_parseMethodReturns : ErrorGrowing parseMethodReturns :=
  (errorReporting_matches _).1.bind fun _ =>
    Grows.ite ((errorReporting_expect _ _).1.bind fun _ => (reporting_pure _).1)
      ((errorGrowing_mustMatch _).bind fun _ => (errorReporting_expect _ _).1.bind fun _ =>
        (errorGrowing_parseArgumentList _).bind fun _ => (errorReporting_expect _ _).1.bind fun _ =>
          (reporting_pure _).1)

theorem errorGrowing_parseReturnsClause : ErrorGrowing parseReturnsClause :=
  (errorReporting_maybe _).1.bind fun _ => Grows.ite errorGrowing_parseMethodReturns
    ((errorReporting_maybe _).1.bind fun _ => Grows.ite errorGrowing_parseMethodReturns
      (reporting_pure _).1)

theorem errorGrowing_parseRaisesClause : ErrorGrowing parseRaisesClause :=
  (errorReporting_maybe _).1.bind fun _ => Grows.ite
    ((errorGrowing_mustMatch _).bind fun _ => (errorReporting_expect _ _).1.bind fun _ =>
      (errorGrowing_parseIdList _).bind fun _ => (errorReporting_expect _ _).1.bind fun _ =>
        (reporting_pure _).1)
    (reporting_pure _).1

theorem errorGrowing_flag (b : Bool) :
    ErrorGrowing (.modify fun s : State => { s with isIdempotent := b }) := by
  intro s a s' hI h
  cases h
  exact ⟨hI, le_rfl⟩

theorem errorGrowing_parseNamedMethod : ErrorGrowing parseNamedMethod :=
  (errorGrowing_mustMatch _).bind fun _ => (reporting_read _).1.bind fun _ =>
    (errorReporting_expect _ _).1.bind fun _ => (reporting_read _).1.bind fun _ =>
    errorGrowing_assignAutodoc.bind fun _ => (errorGrowing_flag _).bind fun _ =>
    (errorGrowing_parseArgumentList _).bind fun _ => (errorReporting_expect _ _).1.bind fun _ =>
    errorGrowing_parseReturnsClause.bind fun _ => errorGrowing_parseRaisesClause.bind fun _ =>
    (errorGrowing_expectSilently _).bind fun _ => errorGrowing_addToTree _

theorem errorGrowing_parseMethodLoop (fuel : Nat) : ErrorGrowing (parseMethodLoop fuel) := by
  induction fuel with
  | zero => exact grows_fail
  | succ fuel ih =>
      exact (errorReporting_matches _).1.bind fun _ => Grows.ite
        ((errorGrowing_flag _).bind fun _ => errorReporting_lex.1.bind fun _ => ih)
        errorGrowing_parseNamedMethod

/-- The declarations. -/
theorem errorGrowing_parseDeclaration (k : Kind) : ErrorGrowing (parseDeclaration k) := by
  have hid : ∀ msg, ErrorGrowing (parseId msg) := fun msg => (errorReporting_parseId msg).1
  have hexpect : ∀ k msg, ErrorGrowing (expect k msg) := fun k msg => (errorReporting_expect k msg).1
  have hconfigure : ∀ a, ErrorGrowing (configureType a) :=
    fun a => (errorReporting_configureType a).1
  have htype : ∀ msg, ErrorGrowing ((parseTypeDecl .new).orError msg) :=
    fun msg => errorGrowing_orError (errorReporting_parseTypeDecl _).1 msg
  have hfields : ErrorGrowing parseFieldList := errorGrowing_listUntil itemReporting_parseField _
  have hchoices : ErrorGrowing parseChoiceList :=
    errorGrowing_listUntil itemReporting_parseChoiceDecl _
  have hmethod : ErrorGrowing parseMethod :=
    (reporting_read _).1.bind fun _ => errorGrowing_parseMethodLoop _
  unfold parseDeclaration
  split
  · exact (errorGrowing_mustMatch _).bind fun _ => (hid _).bind fun _ =>
      errorGrowing_assignAutodoc.bind fun _ => (hexpect _ _).bind fun _ => hfields.bind fun _ =>
      (hexpect _ _).bind fun _ => (errorGrowing_addToTree _).bind fun _ =>
      errorGrowing_insertChecked _ _
  · exact (errorGrowing_mustMatch _).bind fun _ => (hid _).bind fun _ => (hexpect _ _).bind fun _ =>
      (errorGrowing_parseIdList _).bind fun _ => (hexpect _ _).bind fun _ => errorGrowing_addType _
  · exact (errorGrowing_mustMatch _).bind fun _ => (hexpect _ _).bind fun _ =>
      (reporting_read _).1.bind fun _ => (hexpect _ _).bind fun _ => (hexpect _ _).bind fun _ =>
      (reporting_read _).1.bind fun _ => (hexpect _ _).bind fun _ => (hid _).bind fun _ =>
      (hexpect _ _).bind fun _ => (hconfigure _).bind fun _ => errorGrowing_addType _
  · exact (errorGrowing_mustMatch _).bind fun _ => (hid _).bind fun _ => (hexpect _ _).bind fun _ =>
      (hid _).bind fun _ => (hid _).bind fun _ => (hexpect _ _).bind fun _ =>
      (hconfigure _).bind fun _ => errorGrowing_addType _
  · exact (errorGrowing_mustMatch _).bind fun _ => (hexpect _ _).bind fun _ => (htype _).bind fun _ =>
      (hexpect _ _).bind fun _ => (hid _).bind fun _ => (hexpect _ _).bind fun _ =>
      errorGrowing_addType _
  · exact (errorGrowing_mustMatch _).bind fun _ => (hexpect _ _).bind fun _ =>
      (hexpect _ _).bind fun _ => (reporting_read _).1.bind fun _ => (hexpect _ _).bind fun _ =>
      (hid _).bind fun _ => (hexpect _ _).bind fun _ => (hconfigure _).bind fun _ =>
      errorGrowing_addType _
  · exact (errorGrowing_mustMatch _).bind fun _ => (hid _).bind fun _ => (hexpect _ _).bind fun _ =>
      hfields.bind fun _ => (hexpect _ _).bind fun _ => errorGrowing_addType _
  · exact (errorGrowing_mustMatch _).bind fun _ => (hid _).bind fun _ => (hexpect _ _).bind fun _ =>
      (hid _).bind fun _ => (hexpect _ _).bind fun _ => hchoices.bind fun _ =>
      (hexpect _ _).bind fun _ => errorGrowing_addType _
  · exact (errorGrowing_mustMatch _).bind fun _ => (htype _).bind fun _ => (hid _).bind fun _ =>
      (hexpect _ _).bind fun _ => errorGrowing_addType _
  · exact hmethod
  · exact hmethod
  · exact errorGrowing_appendAutodoc
  · exact (errorReporting_parseError _).1

theorem errorGrowing_bodyLoop (fuel : Nat) : ErrorGrowing (bodyLoop fuel) := by
  induction fuel with
  | zero => exact grows_fail
  | succ fuel ih =>
      exact errorReporting_lex.1.bind fun _ => (reporting_read _).1.bind fun _ =>
        grows_fail.ite (Grows.ite errorReporting_lexback.1
          ((errorGrowing_parseDeclaration _).bind fun _ => ih))

/-! ## §2. Items. -/

/-- The node with what an item adds to it. -/
def InterfaceNode.add (n : InterfaceNode) : Item → InterfaceNode
  | .autodoc _ => n
  | .decl d => n.declare d

/-- From `s` the parser has come to `s'`, which goes on with `r`, and has added the items. -/
structure State.Adds (s : State) (items : List Item) (r : List Lexeme) (s' : State) : Prop where
  symbols : s'.symbols = items.foldl Item.symbols s.symbols
  tree : s'.parseTree.map InterfaceNode.bare =
    s.parseTree.map fun n => items.foldl InterfaceNode.add n.bare
  isIdempotent : s'.isIdempotent = false
  errors : s'.errors = s.errors
  reading : s'.Reading r

section Items

variable {s s₁ s' : State} {w r r' : List Lexeme}

theorem State.Declares.adds {d : Decl} (h : s.Declares d r s') (hidem : s.isIdempotent = false) :
    s.Adds [.decl d] r s' :=
  ⟨h.symbols, h.tree, h.isIdempotent hidem, h.errors, h.reading⟩

theorem State.Declares.readAt {d : Decl} (h : (s.readAt w).Declares d r s') : s.Declares d r s' :=
  ⟨h.symbols, h.tree, h.isIdempotent, h.errors, h.reading⟩

theorem State.Adds.trans {items items' : List Item} (h : s.Adds items r s₁)
    (h' : s₁.Adds items' r' s') : s.Adds (items ++ items') r' s' := by
  constructor
  case symbols => rw [List.foldl_append, ← h.symbols, h'.symbols]
  case tree =>
    have htree : s'.parseTree.map InterfaceNode.bare = (s₁.parseTree.map InterfaceNode.bare).map
        fun n => items'.foldl InterfaceNode.add n := by
      rw [h'.tree, Option.map_map]
      rfl
    rw [htree, h.tree, Option.map_map]
    congr 1
    funext n
    rw [List.foldl_append]
    rfl
  case isIdempotent => exact h'.isIdempotent
  case errors => exact h'.errors.trans h.errors
  case reading => exact h'.reading

/-- Documentation is kept for the next node. -/
theorem State.Reading.addsAutodoc {line : String} (hs : s.Reading (.autodoc line :: r))
    (hidem : s.isIdempotent = false) (docs : String) :
    s.Adds [.autodoc line] r { s.readAt (.autodoc line :: r) with autodocBuffer := docs } :=
  have hgo := hs.goes_readAt
  ⟨rfl, rfl, hidem, rfl, ⟨hgo.reading.reads, hgo.reading.grown, hgo.reading.tree⟩⟩

/-- An item has been read, or there was an error in it. -/
def State.ParsedItem (s : State) (w : List Lexeme) (s' : State) : Prop :=
  ∃ (item : Item) (r : List Lexeme), item.Ok s.symbols ∧ w = item.tokens ++ r ∧ s.Adds [item] r s'

theorem State.Parsed.item (h : s.Parsed w s') (hidem : s.isIdempotent = false) :
    s.ParsedItem w s' := by
  obtain ⟨d, r, hd, rfl, hadd⟩ := h
  exact ⟨.decl d, r, hd, rfl, hadd.adds hidem⟩

theorem State.Parsed.itemAt {w' : List Lexeme} (h : (s.readAt w').Parsed w s')
    (hidem : s.isIdempotent = false) : s.ParsedItem w s' := by
  obtain ⟨d, r, hd, rfl, hadd⟩ := h
  exact ⟨.decl d, r, hd, rfl, hadd.readAt.adds hidem⟩

theorem firstKind_eq_kw {t : SymbolTable} (ht : t.Grown) {k : Keyword}
    (h : firstKind t w = .kw k) : ∃ r, w = .kw k :: r := by
  cases w with
  | nil => cases h
  | cons x r =>
      obtain rfl := (kind_eq_kw ht).mp h
      exact ⟨r, rfl⟩

/-- One item is read. -/
theorem parseDeclaration_sound (hs : s.Reading w) (hidem : s.isIdempotent = false)
    (h : parseDeclaration (firstKind s.symbols w) (s.readAt w) = (some (), s')) :
    s.ParsedItem w s' ∨ s.errorCount < s'.errorCount := by
  generalize hk : firstKind s.symbols w = k at h
  unfold parseDeclaration at h
  split at h
  -- each case of the dispatch goes to the rule of its declaration, in the order of `parser.cpp`
  case h_1 =>
    obtain ⟨r, rfl⟩ := firstKind_eq_kw hs.grown hk
    exact (parseException_sound hs.goes_readAt.reading h).imp_left (·.itemAt hidem)
  case h_2 =>
    obtain ⟨r, rfl⟩ := firstKind_eq_kw hs.grown hk
    exact .inl ((parseEnumTypeAlias_sound hs.goes_readAt.reading h).itemAt hidem)
  case h_3 =>
    obtain ⟨r, rfl⟩ := firstKind_eq_kw hs.grown hk
    exact .inl ((parseArrayTypeAlias_sound hs.goes_readAt.reading h).itemAt hidem)
  case h_4 =>
    obtain ⟨r, rfl⟩ := firstKind_eq_kw hs.grown hk
    exact .inl ((parseRangeTypeAlias_sound hs.goes_readAt.reading h).itemAt hidem)
  case h_5 =>
    obtain ⟨r, rfl⟩ := firstKind_eq_kw hs.grown hk
    exact .inl ((parseSequenceTypeAlias_sound hs.goes_readAt.reading h).itemAt hidem)
  case h_6 =>
    obtain ⟨r, rfl⟩ := firstKind_eq_kw hs.grown hk
    exact .inl ((parseSetTypeAlias_sound hs.goes_readAt.reading h).itemAt hidem)
  case h_7 =>
    obtain ⟨r, rfl⟩ := firstKind_eq_kw hs.grown hk
    exact (parseRecordTypeAlias_sound hs.goes_readAt.reading h).imp_left (·.itemAt hidem)
  case h_8 =>
    obtain ⟨r, rfl⟩ := firstKind_eq_kw hs.grown hk
    exact (parseChoiceTypeAlias_sound hs.goes_readAt.reading h).imp_left (·.itemAt hidem)
  case h_9 =>
    obtain ⟨r, rfl⟩ := firstKind_eq_kw hs.grown hk
    exact .inl ((parseTypeAlias_sound hs.goes_readAt.reading h).itemAt hidem)
  case h_10 => exact .inl ((parseMethod_sound hs hidem h).item hidem)
  case h_11 => exact .inl ((parseMethod_sound hs hidem h).item hidem)
  -- a line of documentation is kept for the next declaration
  case h_12 =>
    cases w with
    | nil => cases hk
    | cons x r =>
        obtain ⟨line, rfl⟩ := (kind_eq_autodoc hs.grown).mp hk
        rw [appendAutodoc_eq] at h
        generalize appendTo _ _ = docs at h
        cases h
        exact .inl ⟨.autodoc line, r, trivial, rfl, hs.addsAutodoc hidem _⟩
  case h_13 => cases h

/-- A declaration that begins with a keyword. -/
theorem State.Reading.takeDecl {k : Keyword} {d : Decl} {w : List Lexeme}
    (hs : s.Reading (d.tokens ++ r)) (hidem : s.isIdempotent = false)
    (hw : d.tokens ++ r = .kw k :: w)
    (h : ∀ s₁ : State, s₁.curKind = .kw k → s₁.Reading w → s₁.symbols = s.symbols →
      ∃ s', parseDeclaration (.kw k) s₁ = (some (), s') ∧ s₁.Declares d r s') :
    ∃ s', parseDeclaration (firstKind s.symbols (d.tokens ++ r)) (s.readAt (d.tokens ++ r))
      = (some (), s') ∧ s.Adds [.decl d] r s' := by
  rw [hw] at hs ⊢
  have hk : firstKind s.symbols (.kw k :: w) = .kw k := (kind_eq_kw hs.grown).mpr rfl
  obtain ⟨s', h', hadd⟩ := h (s.readAt (.kw k :: w)) hk hs.goes_readAt.reading rfl
  exact ⟨s', by rw [hk, h'], hadd.readAt.adds hidem⟩

theorem parseDeclaration_complete {item : Item} (hs : s.Reading (item.tokens ++ r))
    (hidem : s.isIdempotent = false) (hok : item.Ok s.symbols) :
    ∃ s', parseDeclaration (firstKind s.symbols (item.tokens ++ r)) (s.readAt (item.tokens ++ r))
      = (some (), s') ∧ s.Adds [item] r s' := by
  cases item with
  | autodoc line => exact ⟨_, rfl, hs.addsAutodoc hidem _⟩
  | decl d =>
      replace hs : s.Reading (d.tokens ++ r) := hs
      replace hok : d.Ok s.symbols := hok
      show ∃ s', parseDeclaration (firstKind s.symbols (d.tokens ++ r)) (s.readAt (d.tokens ++ r))
        = (some (), s') ∧ _
      cases d with
      | exception name fields =>
          refine hs.takeDecl (k := .exception_) (w := .word name :: .sign .lbrace ::
            (fields.flatMap VarDecl.fieldTokens ++ .sign .rbrace :: r)) hidem
            (by simp [Decl.tokens]) fun s₁ hk hs₁ hsym => ?_
          have hok : Decl.Ok s₁.symbols (.exception name fields) := hsym ▸ hok
          exact parseException_complete hk hs₁ hok.1 hok.2
      | enum name ids =>
          refine hs.takeDecl (k := .enum) (w := .word name :: .sign .lbrace ::
            (commaTokens (fun w => [.word w]) false ids ++ .sign .rbrace :: r)) hidem
            (by simp [Decl.tokens]) fun s₁ hk hs₁ hsym => ?_
          have hok : Decl.Ok s₁.symbols (.enum name ids) := hsym ▸ hok
          exact parseEnumTypeAlias_complete hk hs₁ hok.1 hok.2.1 hok.2.2
      | set base name =>
          refine hs.takeDecl (k := .set_) (w := .sign .less :: .word base ::
            .sign .greater :: .word name :: .sign .semicolon :: r) hidem
            (by simp [Decl.tokens]) fun s₁ hk hs₁ hsym => ?_
          have hok : Decl.Ok s₁.symbols (.set base name) := hsym ▸ hok
          exact parseSetTypeAlias_complete hk hs₁ hok.1 hok.2
      | range start stop name =>
          refine hs.takeDecl (k := .range) (w := .word start :: .word .dotdot ::
            .word stop :: .word name :: .sign .semicolon :: r) hidem
            (by simp [Decl.tokens]) fun s₁ hk hs₁ hsym => ?_
          have hok : Decl.Ok s₁.symbols (.range start stop name) := hsym ▸ hok
          exact parseRangeTypeAlias_complete hk hs₁ hok.1 hok.2.1 hok.2.2
      | type decl name =>
          refine hs.takeDecl (k := .type_)
            (w := decl.tokens ++ .word name :: .sign .semicolon :: r) hidem
            (by simp [Decl.tokens]) fun s₁ hk hs₁ hsym => ?_
          have hok : Decl.Ok s₁.symbols (.type decl name) := hsym ▸ hok
          exact parseTypeAlias_complete hk hs₁ hok.1 hok.2
      | sequence decl name =>
          refine hs.takeDecl (k := .sequence) (w := .sign .less ::
            (decl.tokens ++ .sign .greater :: .word name :: .sign .semicolon :: r)) hidem
            (by simp [Decl.tokens]) fun s₁ hk hs₁ hsym => ?_
          have hok : Decl.Ok s₁.symbols (.sequence decl name) := hsym ▸ hok
          exact parseSequenceTypeAlias_complete hk hs₁ hok.1 hok.2
      | array base count name =>
          refine hs.takeDecl (k := .array) (w := .word base :: .sign .lsquare ::
            .cardinal count :: .sign .rsquare :: .word name :: .sign .semicolon :: r) hidem
            (by simp [Decl.tokens]) fun s₁ hk hs₁ hsym => ?_
          have hok : Decl.Ok s₁.symbols (.array base count name) := hsym ▸ hok
          exact parseArrayTypeAlias_complete hk hs₁ hok.1 hok.2
      | record name fields =>
          refine hs.takeDecl (k := .record) (w := .word name :: .sign .lbrace ::
            (fields.flatMap VarDecl.fieldTokens ++ .sign .rbrace :: r)) hidem
            (by simp [Decl.tokens]) fun s₁ hk hs₁ hsym => ?_
          have hok : Decl.Ok s₁.symbols (.record name fields) := hsym ▸ hok
          exact parseRecordTypeAlias_complete hk hs₁ hok.1 hok.2
      | choice name selector choices trailing =>
          refine hs.takeDecl (k := .choice) (w := .word name :: .kw .on_ ::
            .word selector :: .sign .lbrace ::
            (commaTokens Choice.tokens trailing choices ++ .sign .rbrace :: r)) hidem
            (by simp [Decl.tokens]) fun s₁ hk hs₁ hsym => ?_
          have hok : Decl.Ok s₁.symbols (.choice name selector choices trailing) := hsym ▸ hok
          exact parseChoiceTypeAlias_complete hk hs₁ hok.1 hok.2.1 hok.2.2
      -- a method begins with its name or with `idempotent`, and both go to `parse_method`
      | method m =>
          have hdispatch : parseDeclaration (firstKind s.symbols (m.tokens ++ r)) = parseMethod := by
            cases hm : m.idempotent with
            | zero =>
                have hk : firstKind s.symbols (m.tokens ++ r) = .identifier := by
                  simp only [MethodDecl.tokens, hm, List.replicate_zero, List.nil_append,
                    List.cons_append, firstKind]
                  exact hok.1
                rw [hk]
                rfl
            | succ n =>
                have hk : firstKind s.symbols (m.tokens ++ r) = .kw .idempotent := by
                  simp only [MethodDecl.tokens, hm, List.replicate_succ, List.cons_append, firstKind]
                  exact (kind_eq_kw hs.grown).mpr rfl
                rw [hk]
                rfl
          obtain ⟨s', h, hadd⟩ := parseMethod_complete hs hidem hok
          refine ⟨s', ?_, hadd.adds hidem⟩
          show parseDeclaration (firstKind s.symbols (m.tokens ++ r)) _ = _
          rw [hdispatch]
          exact h

theorem State.Reading.addsNothing (hs : s.Reading w) (hidem : s.isIdempotent = false) :
    s.Adds [] w (s.readAt w).lexback := ⟨rfl, rfl, hidem, rfl, hs.goes_lexback.reading⟩

/-- **The body of an interface**, up to its bracket. -/
theorem bodyLoop_sound (fuel : Nat) : ∀ {s : State} {w : List Lexeme}, s.Reading w →
    s.isIdempotent = false → bodyLoop fuel s = (some (), s') →
    (∃ (items : List Item) (r : List Lexeme), ItemsOk s.symbols items ∧
      w = items.flatMap Item.tokens ++ .sign .rbrace :: r ∧ s.Adds items (.sign .rbrace :: r) s') ∨
    s.errorCount < s'.errorCount := by
  induction fuel with
  | zero => exact fun _ _ h => nomatch h
  | succ fuel ih =>
      intro s w hs hidem h
      rw [bodyLoop, bind_of_some (lex_eq hs.reads), read_bind] at h
      have hcur : (s.readAt w).curKind = firstKind s.symbols w := rfl
      rw [hcur] at h
      split at h
      · -- end of file
        cases h
      · split at h
        · next hbrace =>
            cases w with
            | nil => cases hbrace
            | cons x r =>
                obtain rfl := (kind_eq_sign hs.grown).mp hbrace
                cases h
                exact .inl ⟨[], r, trivial, rfl, hs.addsNothing hidem⟩
        · -- a declaration, and the rest of the body; errors are only ever added to
          obtain ⟨_, s₁, h₁, h₂⟩ := bind_eq_some.mp h
          obtain ⟨htree, hle⟩ := errorGrowing_parseDeclaration _ (s.readAt w) _ _ hs.tree h₁
          rcases parseDeclaration_sound hs hidem h₁ with ⟨item, r, hitem, rfl, hadd⟩ | hlt
          · rcases ih hadd.reading hadd.isIdempotent h₂ with ⟨items, r', hitems, rfl, hadds⟩ | hlt
            · refine .inl ⟨item :: items, r', ⟨hitem, ?_⟩, by simp, hadd.trans hadds⟩
              rw [hadd.symbols] at hitems
              exact hitems
            · right
              rwa [errorCount, hadd.errors] at hlt
          · right
            exact lt_of_lt_of_le hlt (errorGrowing_bodyLoop fuel _ _ _ htree h₂).2

theorem bodyLoop_complete (items : List Item) : ∀ {s : State} {fuel : Nat},
    s.Reading (items.flatMap Item.tokens ++ .sign .rbrace :: r) → s.isIdempotent = false →
    ItemsOk s.symbols items → items.length < fuel →
    ∃ s', bodyLoop fuel s = (some (), s') ∧ s.Adds items (.sign .rbrace :: r) s' := by
  induction items with
  | nil =>
      intro s fuel hs hidem _ hfuel
      obtain ⟨fuel, rfl⟩ := Nat.exists_eq_succ_of_ne_zero (Nat.ne_zero_of_lt hfuel)
      refine ⟨_, ?_, hs.addsNothing hidem⟩
      rw [bodyLoop, bind_of_some (lex_eq hs.reads), read_bind]
      rfl
  | cons item items ih =>
      intro s fuel hs hidem hok hfuel
      obtain ⟨fuel, rfl⟩ := Nat.exists_eq_succ_of_ne_zero (Nat.ne_zero_of_lt hfuel)
      rw [List.flatMap_cons, List.append_assoc] at hs
      obtain ⟨s₁, h₁, hadd⟩ := parseDeclaration_complete hs hidem hok.1
      obtain ⟨s', h, hadds⟩ := ih hadd.reading hadd.isIdempotent (by rw [hadd.symbols]; exact hok.2)
        (Nat.lt_of_succ_lt_succ hfuel)
      refine ⟨s', ?_, hadd.trans hadds⟩
      rw [bodyLoop, bind_of_some (lex_eq hs.reads), read_bind]
      have hcur : (s.readAt (item.tokens ++ (items.flatMap Item.tokens ++ .sign .rbrace :: r))).curKind
          = firstKind s.symbols (item.tokens ++ (items.flatMap Item.tokens ++ .sign .rbrace :: r)) :=
        rfl
      rw [hcur]
      generalize firstKind s.symbols _ = k at h₁
      rw [if_neg, if_neg, bind_of_some h₁, h]
      · rintro rfl
        cases h₁
      · rintro rfl
        cases h₁

end Items

/-! ## §3. The parent. -/

/-- `mustMatchOr` succeeds on the kind. -/
theorem mustMatchOr_sound {k : Kind} {msg : String} {s s' : State}
    (h : mustMatchOr k msg s = (some (), s')) : s.curKind = k ∧ s' = s := by
  rw [mustMatchOr, bind_of_some (matches_apply k s)] at h
  split at h
  · next hk =>
      cases h
      exact ⟨of_decide_eq_true hk, rfl⟩
  · cases h

theorem mustMatchOr_complete {k : Kind} {s : State} (hk : s.curKind = k) (msg : String) :
    mustMatchOr k msg s = (some (), s) := by
  rw [mustMatchOr, bind_of_some (matches_apply k s), if_pos (decide_eq_true hk)]
  rfl

/-- The state with the name of the parent in the tree. -/
def State.withBase (s : State) (base : Option Ident) : State :=
  { s with parseTree := s.parseTree.map fun tree => { tree with base := base.getD tree.base } }

/-- How the parent is written. -/
def extendsTokens (base : Option Ident) : List Lexeme :=
  base.elim [] fun b => [.kw .extends_, .word b]

section Extends

variable {s s' : State} {w r : List Lexeme}

theorem State.withBase_none (s : State) : s.withBase none = s := by
  have htree : (s.parseTree.map fun tree : InterfaceNode =>
      { tree with base := Option.getD none tree.base }) = s.parseTree := by
    cases s.parseTree with
    | none => rfl
    | some tree => rfl
  rw [withBase, htree]

theorem State.Goes.withBase (hgo : s.Goes w s') (base : Option Ident)
    (hs' : s'.parseTree = s.parseTree) : (s.withBase base).Goes w (s'.withBase base) := by
  obtain ⟨⟨hsymbols, -, hlocal, hfinal, hidem, hdocs, herrors⟩, hreads, hgrown, htree⟩ := hgo
  refine ⟨⟨hsymbols, ?_, hlocal, hfinal, hidem, hdocs, herrors⟩, hreads, hgrown, ?_⟩
  · simp only [State.withBase, hs']
  · simp only [State.withBase, Option.isSome_map]
    exact htree

theorem parseExtends_sound (hs : s.Reading w) (h : parseExtends s = (some (), s')) :
    ∃ (base : Option Ident) (r : List Lexeme), w = extendsTokens base ++ r ∧
      (∀ b, base = some b → s.symbols.kindOf b = .identifier) ∧ (s.withBase base).Goes r s' := by
  obtain ⟨b, s₁, h₁, h₂⟩ := bind_eq_some.mp h
  rcases b with - | -
  · obtain ⟨-, rfl⟩ := maybe_eq_some hs.reads h₁
    cases h₂
    refine ⟨none, w, rfl, (fun b hb => nomatch hb), ?_⟩
    rw [s.withBase_none]
    exact hs.goes_lexback
  · obtain ⟨hk, rfl⟩ := maybe_eq_some hs.reads h₁
    rw [eq_comm, Kind.wanted_eq (by simp)] at hk
    obtain ⟨r, rfl⟩ := firstKind_eq_kw hs.grown hk
    have hs₁ := hs.goes_readAt
    rw [if_pos rfl, if_pos rfl, bind_of_some (lex_eq hs₁.reading.reads)] at h₂
    obtain ⟨_, s₂, h₂, h₃⟩ := bind_eq_some.mp h₂
    obtain ⟨hid, rfl⟩ := mustMatchOr_sound h₂
    cases r with
    | nil => cases hid
    | cons x r =>
        obtain ⟨b, rfl, hb⟩ := kind_eq_identifier.mp hid
        cases h₃
        refine ⟨some b, r, rfl, fun b' hb' => Option.some_inj.mp hb' ▸ hb, ?_⟩
        exact (hs₁.trans hs₁.reading.goes_readAt).withBase (some b) rfl

theorem parseExtends_complete {base : Option Ident} (hs : s.Reading (extendsTokens base ++ r))
    (hbase : ∀ b, base = some b → s.symbols.kindOf b = .identifier)
    (hr : firstKind s.symbols r ≠ .kw .extends_) :
    ∃ s', parseExtends s = (some (), s') ∧ (s.withBase base).Goes r s' := by
  cases base with
  | none =>
      have hno : (Kind.kw .extends_).wanted (firstKind s.symbols (extendsTokens none ++ r)) = false := by
        rw [Bool.eq_false_iff, Ne, Kind.wanted_eq (by simp)]
        exact hr
      refine ⟨_, bind_of_some (maybe_of_not hs.reads hno), ?_⟩
      rw [s.withBase_none]
      exact hs.goes_lexback
  | some b =>
      replace hs : s.Reading (.kw .extends_ :: .word b :: r) := hs
      have hs₁ := hs.goes_readAt
      have hyes : (Kind.kw .extends_).wanted (firstKind s.symbols (.kw .extends_ :: .word b :: r))
          = true := (Kind.wanted_eq (by simp)).mpr ((kind_eq_kw hs.grown).mpr rfl)
      refine ⟨_, ?_, (hs₁.trans hs₁.reading.goes_readAt).withBase (some b) rfl⟩
      rw [parseExtends, bind_of_some (maybe_of_wanted hs.reads hyes), if_pos rfl,
        bind_of_some (lex_eq hs₁.reading.reads),
        bind_of_some (mustMatchOr_complete (hbase b rfl) _), read_bind]
      rfl

end Extends

/-! ## §4. From the name to the last bracket. -/

/-- What follows the name of an interface. -/
def parseBraced : Parse Unit := do
  parseExtends
  expect (.sign .lbrace) "\x7b expected"
  parseInterfaceBody
  expect (.sign .rbrace) "\x7d expected"

/-- The parent and the items were read, and are in the tree. -/
structure State.Braces (s : State) (base : Option Ident) (items : List Item) (s' : State) :
    Prop where
  tree : s'.parseTree.map InterfaceNode.bare =
    (s.withBase base).parseTree.map fun n => items.foldl InterfaceNode.add n.bare
  errors : s'.errors = s.errors

section Braced

variable {s s₁ s₂ s' : State} {w r : List Lexeme} {base : Option Ident} {items : List Item}

/-- The items go into the tree that has the parent. -/
theorem State.Goes.braces {r' : List Lexeme} (hgo : (s.withBase base).Goes w s₁)
    (hadds : s₁.Adds items r s₂) (hend : s₂.Goes r' s') : s.Braces base items s' := by
  refine ⟨?_, hend.keeps.errors.trans (hadds.errors.trans hgo.keeps.errors)⟩
  have htree : (s₁.parseTree.map fun n => items.foldl InterfaceNode.add n.bare) =
      (s₁.parseTree.map InterfaceNode.bare).map fun n => items.foldl InterfaceNode.add n := by
    rw [Option.map_map]
    rfl
  rw [hend.keeps.tree, hadds.tree, htree, hgo.keeps.tree, Option.map_map]
  rfl

theorem parseBraced_sound (hs : s.Reading w) (hidem : s.isIdempotent = false)
    (h : parseBraced s = (some (), s')) :
    (∃ (base : Option Ident) (items : List Item) (r : List Lexeme),
      (∀ b, base = some b → s.symbols.kindOf b = .identifier) ∧ ItemsOk s.symbols items ∧
      w = extendsTokens base ++ .sign .lbrace :: (items.flatMap Item.tokens ++ .sign .rbrace :: r) ∧
      s.Braces base items s') ∨ s.errorCount < s'.errorCount := by
  obtain ⟨_, s₁, h₁, h⟩ := bind_eq_some.mp h
  obtain ⟨base, r, rfl, hbase, hgo₁⟩ := parseExtends_sound hs h₁
  obtain ⟨_, s₂, h₂, h⟩ := bind_eq_some.mp h
  obtain ⟨r, rfl, -, hgo₂⟩ := hgo₁.readSign h₂
  obtain ⟨_, s₃, h₃, h⟩ := bind_eq_some.mp h
  rw [parseInterfaceBody, read_bind] at h₃
  rcases bodyLoop_sound _ hgo₂.reading (hgo₂.keeps.isIdempotent.trans hidem) h₃ with
    ⟨items, r, hitems, rfl, hadds⟩ | hlt
  · obtain ⟨r', hr, -, hgo₄⟩ := hadds.reading.self.readSign h
    cases hr
    refine .inl ⟨base, items, r, hbase, ?_, rfl, hgo₂.braces hadds hgo₄⟩
    rw [hgo₂.keeps.symbols] at hitems
    exact hitems
  · right
    have htree := (errorGrowing_bodyLoop _ _ _ _ hgo₂.reading.tree h₃).1
    have hle := ((errorReporting_expect _ _).1 _ _ _ htree h).2
    rw [errorCount, hgo₂.keeps.errors] at hlt
    exact lt_of_lt_of_le hlt hle

theorem Item.tokens_pos (item : Item) : 0 < item.tokens.length := by
  cases item with
  | autodoc line => exact Nat.one_pos
  | decl d =>
      cases d with
      | method m =>
          simp only [tokens, Decl.tokens, MethodDecl.tokens, List.length_append, List.length_cons]
          omega
      | _ => simp [tokens, Decl.tokens]

theorem length_le_flatMap (items : List Item) :
    items.length ≤ (items.flatMap Item.tokens).length := by
  induction items with
  | nil => exact le_rfl
  | cons item items ih =>
      have := item.tokens_pos
      simp only [List.flatMap_cons, List.length_append, List.length_cons]
      omega

theorem parseBraced_complete
    (hs : s.Reading (extendsTokens base ++
      .sign .lbrace :: (items.flatMap Item.tokens ++ .sign .rbrace :: r)))
    (hidem : s.isIdempotent = false)
    (hbase : ∀ b, base = some b → s.symbols.kindOf b = .identifier)
    (hitems : ItemsOk s.symbols items) :
    ∃ s', parseBraced s = (some (), s') ∧ s.Braces base items s' := by
  obtain ⟨s₁, h₁, hgo₁⟩ := parseExtends_complete hs hbase (by simp [firstKind, Lexeme.kind])
  obtain ⟨s₂, h₂, hnext, hgo₂⟩ := hgo₁.takeSign "\x7b expected"
  have hrest : s₂.rest = items.flatMap Item.tokens ++ .sign .rbrace :: r := by
    rcases hgo₂.reading.reads with ⟨-, hrest⟩ | ⟨hback, -⟩
    · exact hrest
    · rw [hnext] at hback
      cases hback
  have hfuel : items.length < s₂.rest.length + 2 := by
    have := length_le_flatMap items
    rw [hrest, List.length_append]
    omega
  obtain ⟨s₃, h₃, hadds⟩ := bodyLoop_complete items hgo₂.reading
    (hgo₂.keeps.isIdempotent.trans hidem) (by rw [hgo₂.keeps.symbols]; exact hitems) hfuel
  obtain ⟨s₄, h₄, -, hgo₄⟩ := hadds.reading.self.takeSign "\x7d expected"
  refine ⟨s₄, ?_, hgo₂.braces hadds hgo₄⟩
  rw [parseBraced, bind_of_some h₁, bind_of_some h₂, parseInterfaceBody]
  exact (bind_of_some (by rw [read_bind]; exact h₃)).trans h₄

end Braced

end Metta.Meddler
