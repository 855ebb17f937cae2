/-
  Metta.Meddler.Accepts — what the parser takes is what the trees are written as.

  For every function of the parser: when it succeeds, it has read the tokens of
  a tree (`_sound`), and when the tokens of a tree are there, it succeeds and
  reads them (`_complete`).  A function that fails in a list of fields or choices
  has reported an error, also when its caller goes on.
-/
import Metta.Meddler.Reading

namespace Metta.Meddler

open Metta.Machine Attempt State

/-! ## §1. Types and variables. -/

theorem InterfaceNode.importType_bare (tree : InterfaceNode) (a : Alias) :
    (tree.importType a).bare = tree.bare := by
  rw [importType]
  split
  · rfl
  · rfl

/-- `configure_type` does not change what the source says. -/
theorem InterfaceNode.configureType_bare (tree : InterfaceNode) (t : SymbolTable) (a : Alias) :
    (tree.configureType t a).1.bare = tree.bare ∧ (tree.configureType t a).2.bare = a.bare := by
  rw [configureType]
  split
  · exact ⟨rfl, rfl⟩
  · split
    · exact ⟨importType_bare _ _, rfl⟩
    · split
      · exact ⟨rfl, rfl⟩
      · exact ⟨importType_bare _ _, rfl⟩

section Types

variable {s s' : State} {w r : List Lexeme}

theorem configureType_goes (hs : s.Reading w) (a : Alias) :
    ∃ a' s', configureType a s = (some a', s') ∧ a'.bare = a.bare ∧ s.Goes w s' := by
  obtain ⟨tree, htree⟩ := Option.isSome_iff_exists.mp hs.tree
  obtain ⟨h₁, h₂⟩ := tree.configureType_bare s.symbols a
  refine ⟨(tree.configureType s.symbols a).2,
    { s with parseTree := some (tree.configureType s.symbols a).1 }, ?_, h₂, hs.goes ?_ hs.reads⟩
  · rw [configureType, htree]
  · refine ⟨rfl, ?_, rfl, rfl, rfl, rfl, rfl⟩
    rw [htree, Option.map_some, Option.map_some, h₁]

theorem parseTypeId_sound (hs : s.Reading w) {a : Ident} (h : parseTypeId s = (some a, s')) :
    ∃ r, w = .word a :: r ∧ s.symbols.IsTypeId a ∧ s.Goes r s' := by
  rw [parseTypeId, bind_of_some (wantLex_eq hs.reads _)] at h
  split at h
  · next hwant =>
      obtain ⟨x, r, rfl, hx⟩ := firstKind_wanted (by simp) hwant
      rw [Kind.wanted_eq (by simp), kind_eq_type] at hx
      obtain ⟨a', rfl, ha'⟩ := hx
      cases h
      exact ⟨r, rfl, .inl ha', hs.goes_readAt⟩
  · obtain ⟨b, s₁, h₁, h₂⟩ := bind_eq_some.mp h
    cases h₁
    split at h₂
    · next hid =>
        have hid : firstKind s.symbols w = .identifier := of_decide_eq_true hid
        cases w with
        | nil => cases hid
        | cons x r =>
            obtain ⟨a', rfl, ha'⟩ := kind_eq_identifier.mp hid
            cases h₂
            exact ⟨r, rfl, .inr ha', hs.goes_readAt⟩
    · cases h₂

theorem parseTypeId_complete {a : Ident} (hs : s.Reading (.word a :: r))
    (ha : s.symbols.IsTypeId a) : ∃ s', parseTypeId s = (some a, s') ∧ s.Goes r s' := by
  refine ⟨s.readAt (.word a :: r), ?_, hs.goes_readAt⟩
  rw [parseTypeId, bind_of_some (wantLex_eq hs.reads _)]
  rcases ha with ha | ha
  · simp only [firstKind, Lexeme.kind, ha]
    rfl
  · have hcur : (s.readAt (.word a :: r)).curKind = .identifier := ha
    simp only [firstKind, Lexeme.kind, ha]
    rw [if_neg (by decide), matches_, read_bind, hcur]
    rfl

theorem parseTypeDecl_sound (hs : s.Reading w) {a : Alias}
    (h : parseTypeDecl .new s = (some a, s')) :
    ∃ t : TypeDecl, ∃ r, t.Ok s.symbols ∧ w = t.tokens ++ r ∧ a.bare = t.node .empty ∧
      s.Goes r s' := by
  rw [parseTypeDecl] at h
  obtain ⟨type, s₁, h₁, h⟩ := bind_eq_some.mp h
  obtain ⟨r, rfl, htype, hgo₁⟩ := parseTypeId_sound hs h₁
  obtain ⟨ref, s₂, h₂, h⟩ := bind_eq_some.mp h
  rcases maybe_sound hgo₁.reading (by simp) h₂ with ⟨rfl, x, r, rfl, hx, -, hgo₂⟩ | ⟨rfl, hgo₂⟩
  · rw [Kind.wanted_eq (by simp), kind_eq_sign hgo₁.reading.grown] at hx
    subst hx
    obtain ⟨a', s₃, h₃, hbare, hgo₃⟩ := configureType_goes hgo₂.reading
      { Alias.new with type := type, reference := true }
    cases h₃.symm.trans h
    exact ⟨⟨type, true⟩, r, htype, rfl, hbare, (hgo₁.trans hgo₂).trans hgo₃⟩
  · obtain ⟨a', s₃, h₃, hbare, hgo₃⟩ := configureType_goes hgo₂.reading
      { Alias.new with type := type, reference := false }
    cases h₃.symm.trans h
    exact ⟨⟨type, false⟩, r, htype, rfl, hbare, (hgo₁.trans hgo₂).trans hgo₃⟩

theorem parseTypeDecl_complete {t : TypeDecl} (hs : s.Reading (t.tokens ++ r))
    (ht : t.Ok s.symbols) (hnext : firstKind s.symbols r ≠ .sign .reference) :
    ∃ a s', parseTypeDecl .new s = (some a, s') ∧ a.bare = t.node .empty ∧ s.Goes r s' := by
  obtain ⟨type, reference⟩ := t
  obtain ⟨s₁, h₁, hgo₁⟩ := parseTypeId_complete hs ht
  cases reference with
  | true =>
      obtain ⟨h₂, hgo₂⟩ := maybe_taken hgo₁.reading (k := .sign .reference)
        ((Kind.wanted_eq (by simp)).mpr rfl)
      obtain ⟨a', s₃, h₃, hbare, hgo₃⟩ := configureType_goes hgo₂.reading
        { Alias.new with type := type, reference := true }
      refine ⟨a', s₃, ?_, hbare, (hgo₁.trans hgo₂).trans hgo₃⟩
      rw [parseTypeDecl, bind_of_some h₁, bind_of_some h₂]
      exact h₃
  | false =>
      obtain ⟨s₂, h₂, hgo₂⟩ := maybe_passed hgo₁.reading (k := .sign .reference) (by simp)
        (by rw [hgo₁.keeps.symbols]; exact hnext)
      obtain ⟨a', s₃, h₃, hbare, hgo₃⟩ := configureType_goes hgo₂.reading
        { Alias.new with type := type, reference := false }
      refine ⟨a', s₃, ?_, hbare, (hgo₁.trans hgo₂).trans hgo₃⟩
      rw [parseTypeDecl, bind_of_some h₁, bind_of_some h₂]
      exact h₃

/-- A name does not change what else a node is. -/
theorem Alias.bare_rename {a : Alias} {t : TypeDecl} {name name' : Ident} {autodoc : String}
    (h : a.bare = t.node name) :
    Alias.bare { a with name := name', autodoc := autodoc } = t.node name' := by
  cases a
  cases h
  rfl

theorem parseVarDecl_sound (hs : s.Reading w) {a : Alias}
    (h : parseVarDecl .new s = (some a, s')) :
    ∃ v : VarDecl, ∃ r, v.Ok s.symbols ∧ w = v.tokens ++ r ∧ a.bare = v.node ∧ s.Goes r s' := by
  rw [parseVarDecl] at h
  obtain ⟨doc, s₁, h₁, h⟩ := bind_eq_some.mp h
  rw [read_bind] at h
  obtain ⟨a', s₂, h₂, h⟩ := bind_eq_some.mp h
  obtain ⟨name, s₃, h₃, h⟩ := bind_eq_some.mp h
  cases h
  rcases maybe_sound hs (by simp) h₁ with ⟨rfl, x, r, rfl, hx, -, hgo₁⟩ | ⟨rfl, hgo₁⟩
  · rw [Kind.wanted_eq (by simp), kind_eq_autodoc hs.grown] at hx
    obtain ⟨line, rfl⟩ := hx
    obtain ⟨t, r, ht, rfl, hbare, hgo₂⟩ := parseTypeDecl_sound hgo₁.reading h₂
    obtain ⟨r, rfl, hname, hgo₃⟩ := parseId_sound hgo₂.reading h₃
    rw [hgo₁.keeps.symbols] at ht
    rw [(hgo₁.trans hgo₂).keeps.symbols] at hname
    refine ⟨⟨some line, t, name⟩, r, ⟨ht, hname⟩, ?_, Alias.bare_rename hbare,
      (hgo₁.trans hgo₂).trans hgo₃⟩
    simp [VarDecl.tokens]
  · obtain ⟨t, r, ht, rfl, hbare, hgo₂⟩ := parseTypeDecl_sound hgo₁.reading h₂
    obtain ⟨r, rfl, hname, hgo₃⟩ := parseId_sound hgo₂.reading h₃
    rw [hgo₁.keeps.symbols] at ht
    rw [(hgo₁.trans hgo₂).keeps.symbols] at hname
    refine ⟨⟨none, t, name⟩, r, ⟨ht, hname⟩, ?_, Alias.bare_rename hbare,
      (hgo₁.trans hgo₂).trans hgo₃⟩
    simp [VarDecl.tokens]

/-- A type is neither documentation nor a keyword. -/
theorem TypeDecl.firstKind_tokens {t : TypeDecl} {symbols : SymbolTable} (ht : t.Ok symbols)
    (r : List Lexeme) : firstKind symbols (t.tokens ++ r) = .type ∨
      firstKind symbols (t.tokens ++ r) = .identifier := ht

theorem parseVarDecl_complete {v : VarDecl} (hs : s.Reading (v.tokens ++ r))
    (hv : v.Ok s.symbols) :
    ∃ a s', parseVarDecl .new s = (some a, s') ∧ a.bare = v.node ∧ s.Goes r s' := by
  obtain ⟨autodoc, t, name⟩ := v
  obtain ⟨ht, hname⟩ := hv
  -- the documentation, if there is any
  obtain ⟨doc, s₁, h₁, hgo₁⟩ : ∃ doc s₁, maybe .autodoc s = (some doc, s₁) ∧
      s.Goes (t.tokens ++ (.word name :: r)) s₁ := by
    cases autodoc with
    | none =>
        rw [VarDecl.tokens, Option.map_none, Option.toList_none, List.nil_append,
          List.append_assoc] at hs
        obtain ⟨s₁, h₁, hgo₁⟩ := maybe_passed hs (k := .autodoc) (by simp) (by
          rcases t.firstKind_tokens ht (.word name :: r) with h | h
          · simp [h]
          · simp [h])
        exact ⟨false, s₁, h₁, hgo₁⟩
    | some line =>
        rw [VarDecl.tokens, Option.map_some, Option.toList_some, List.append_assoc,
          List.singleton_append, List.cons_append] at hs
        obtain ⟨h₁, hgo₁⟩ := maybe_taken hs (k := .autodoc) ((Kind.wanted_eq (by simp)).mpr rfl)
        exact ⟨true, _, h₁, hgo₁⟩
  rw [← hgo₁.keeps.symbols] at ht hname
  obtain ⟨a, s₂, h₂, hbare, hgo₂⟩ := parseTypeDecl_complete hgo₁.reading ht
    (firstKind_word_ne_sign hgo₁.reading.grown _ _ _)
  rw [← hgo₂.keeps.symbols] at hname
  obtain ⟨s₃, h₃, hgo₃⟩ := parseId_complete hgo₂.reading hname "field name expected"
  have hrun : ∃ doc, parseVarDecl .new s = (some { a with name := name, autodoc := doc }, s₃) := by
    refine ⟨if doc then s₁.currentAutodoc else "", ?_⟩
    rw [parseVarDecl, bind_of_some h₁, read_bind, bind_of_some h₂, bind_of_some h₃]
    rfl
  obtain ⟨line, hrun⟩ := hrun
  exact ⟨_, s₃, hrun, Alias.bare_rename hbare, (hgo₁.trans hgo₂).trans hgo₃⟩

end Types

/-! ## §2. Lists. -/

section Lists

variable {s s' : State} {w r : List Lexeme} {stop : Sign}

theorem matches_apply (k : Kind) (s : State) : matches_ k s = (some (decide (s.curKind = k)), s) := rfl

/-- What comes behind an item: a comma is read, the end of the list is not. -/
theorem separator_sound (hs : s.Reading w) {msg : String}
    (h : separator (.sign stop) msg s = (some (), s')) :
    ∃ r, (w = .sign .comma :: r ∧ s.Goes r s') ∨ (w = .sign stop :: r ∧ s.Goes w s') := by
  rw [separator, bind_of_some (wantLex_eq hs.reads _)] at h
  split at h
  · next hwant =>
      obtain ⟨x, r, rfl, hx⟩ := firstKind_wanted (by simp) hwant
      rw [Kind.wanted_eq (by simp), kind_eq_sign hs.grown] at hx
      subst hx
      cases h
      exact ⟨r, .inl ⟨rfl, hs.goes_readAt⟩⟩
  · rw [bind_of_some (matches_apply _ _)] at h
    split at h
    · next hstop =>
        have hstop : firstKind s.symbols w = .sign stop := of_decide_eq_true hstop
        cases w with
        | nil => cases hstop
        | cons x r =>
            obtain rfl := (kind_eq_sign hs.grown).mp hstop
            cases h
            exact ⟨r, .inr ⟨rfl, hs.goes_lexback⟩⟩
    · cases h

theorem separator_comma (hs : s.Reading (.sign .comma :: r)) (msg : String) :
    ∃ s', separator (.sign stop) msg s = (some (), s') ∧ s.Goes r s' := by
  refine ⟨s.readAt (.sign .comma :: r), ?_, hs.goes_readAt⟩
  rw [separator, bind_of_some (wantLex_eq hs.reads _)]
  rfl

theorem separator_stop (hs : s.Reading (.sign stop :: r)) (hstop : stop ≠ .comma) (msg : String) :
    ∃ s', separator (.sign stop) msg s = (some (), s') ∧ s.Goes (.sign stop :: r) s' := by
  refine ⟨(s.readAt (.sign stop :: r)).lexback, ?_, hs.goes_lexback⟩
  have hcomma : Kind.wanted (.sign .comma) (firstKind s.symbols (.sign stop :: r)) = false := by
    rw [← Bool.not_eq_true, Kind.wanted_eq (by simp)]
    simpa [firstKind, Lexeme.kind] using hstop
  rw [separator, bind_of_some (wantLex_eq hs.reads _), hcomma, if_neg (by simp),
    bind_of_some (matches_apply _ _)]
  have hstop' : decide ((s.readAt (.sign stop :: r)).curKind = .sign stop) = true :=
    decide_eq_true (show firstKind s.symbols (.sign stop :: r) = _ from rfl)
  rw [if_pos hstop']
  rfl

variable {α β : Type} {item : Parse (α × Bool)}

/-- The loop at the end of the list. -/
theorem listLoop_stop (hs : s.Reading (.sign stop :: r)) (fuel : Nat) :
    listLoop (.sign stop) item (fuel + 1) s
      = (some ([], true), (s.readAt (.sign stop :: r)).lexback) := by
  rw [listLoop, bind_of_some (lex_eq hs.reads), bind_of_some (matches_apply _ _)]
  have hstop' : decide ((s.readAt (.sign stop :: r)).curKind = .sign stop) = true :=
    decide_eq_true (show firstKind s.symbols (.sign stop :: r) = _ from rfl)
  rw [if_pos hstop']
  rfl

/-- The loop before an item. -/
theorem listLoop_item (hs : s.Reads w) (hw : firstKind s.symbols w ≠ .sign stop) (fuel : Nat) :
    listLoop (.sign stop) item (fuel + 1) s
      = (item.attempt >>= fun x => match x with
          | none => pure ([], false)
          | some (a, false) => pure ([a], false)
          | some (a, true) => do
              let (as, ok) ← listLoop (.sign stop) item fuel
              return (a :: as, ok)) (s.readAt w).lexback := by
  rw [listLoop, bind_of_some (lex_eq hs), bind_of_some (matches_apply _ _)]
  have hno : ¬ decide ((s.readAt w).curKind = .sign stop) = true := by
    rw [decide_eq_true_eq]
    exact hw
  rw [if_neg hno]
  rfl

/-- What an item of a list reads: `T x w r` says that the tree `x` is at the beginning of `w`,
and that `r` comes behind it. -/
structure ItemSpec (symbols : SymbolTable) (stop : Sign) (item : Parse (α × Bool))
    (T : β → List Lexeme → List Lexeme → Prop) (rel : α → β → Prop) : Prop where
  sound : ∀ (s : State) (w : List Lexeme) (a : α) (s' : State), s.symbols = symbols →
    s.Reading w → item s = (some (a, true), s') → ∃ x r, T x w r ∧ rel a x ∧ s.Goes r s'
  complete : ∀ (s : State) (w : List Lexeme) (x : β) (r : List Lexeme), s.symbols = symbols →
    s.Reading w → T x w r → ∃ a s', item s = (some (a, true), s') ∧ rel a x ∧ s.Goes r s'
  first : ∀ (x : β) (w r : List Lexeme), T x w r → firstKind symbols w ≠ .sign stop
  shorter : ∀ (x : β) (w r : List Lexeme), T x w r → r.length < w.length

/-- Trees one behind the other. -/
def InRow (T : β → List Lexeme → List Lexeme → Prop) :
    List β → List Lexeme → List Lexeme → Prop
  | [], w, r => w = r
  | x :: xs, w, r => ∃ u, T x w u ∧ InRow T xs u r

variable {T : β → List Lexeme → List Lexeme → Prop} {rel : α → β → Prop}

/-- **What the loop has read** when it has come to the end of the list. -/
theorem listLoop_sound (hspec : ItemSpec s.symbols stop item T rel) (hs : s.Reading w) {fuel : Nat}
    {as : List α} (h : listLoop (.sign stop) item fuel s = (some (as, true), s')) :
    ∃ xs r, InRow T xs w (.sign stop :: r) ∧ List.Forall₂ rel as xs ∧
      s.Goes (.sign stop :: r) s' := by
  induction fuel generalizing s w as with
  | zero => cases h
  | succ fuel ih =>
      by_cases hw : firstKind s.symbols w = .sign stop
      · cases w with
        | nil => cases hw
        | cons x r =>
            obtain rfl := (kind_eq_sign hs.grown).mp hw
            rw [listLoop_stop hs] at h
            cases h
            exact ⟨[], r, rfl, .nil, hs.goes_lexback⟩
      · rw [listLoop_item hs.reads hw, attempt_bind] at h
        have hgo := hs.goes_lexback
        rcases hitem : item (s.readAt w).lexback with ⟨_ | ⟨a, _ | _⟩, s₁⟩
        · rw [hitem] at h
          cases h
        · rw [hitem] at h
          cases h
        · rw [hitem] at h
          obtain ⟨⟨as', ok⟩, s₂, hrest, h⟩ := bind_eq_some.mp h
          cases h
          obtain ⟨x, u, hx, hrel, hgo₁⟩ := hspec.sound _ w a s₁ hgo.keeps.symbols hgo.reading hitem
          have hgo₁ := hgo.trans hgo₁
          rw [← hgo₁.keeps.symbols] at hspec
          obtain ⟨xs, r, hxs, hrels, hgo₂⟩ := ih hspec hgo₁.reading hrest
          exact ⟨x :: xs, r, ⟨u, hx, hxs⟩, .cons hrel hrels, hgo₁.trans hgo₂⟩

/-- **A list is read** up to its end. -/
theorem listLoop_complete (hspec : ItemSpec s.symbols stop item T rel) (hs : s.Reading w)
    {xs : List β} (hxs : InRow T xs w (.sign stop :: r)) {fuel : Nat} (hfuel : xs.length < fuel) :
    ∃ as s', listLoop (.sign stop) item fuel s = (some (as, true), s') ∧
      List.Forall₂ rel as xs ∧ s.Goes (.sign stop :: r) s' := by
  induction xs generalizing s w fuel with
  | nil =>
      obtain ⟨fuel, rfl⟩ := Nat.exists_eq_succ_of_ne_zero (Nat.ne_zero_of_lt hfuel)
      obtain rfl : w = _ := hxs
      exact ⟨[], _, listLoop_stop hs fuel, .nil, hs.goes_lexback⟩
  | cons x xs ih =>
      obtain ⟨fuel, rfl⟩ := Nat.exists_eq_succ_of_ne_zero (Nat.ne_zero_of_lt hfuel)
      obtain ⟨u, hx, hxs⟩ := hxs
      have hgo := hs.goes_lexback
      obtain ⟨a, s₁, hitem, hrel, hgo₁⟩ :=
        hspec.complete _ w x u hgo.keeps.symbols hgo.reading hx
      have hgo₁ := hgo.trans hgo₁
      have hfirst := hspec.first x w u hx
      rw [← hgo₁.keeps.symbols] at hspec
      obtain ⟨as, s₂, hrest, hrels, hgo₂⟩ := ih hspec hgo₁.reading hxs (by simpa using hfuel)
      refine ⟨a :: as, s₂, ?_, .cons hrel hrels, hgo₁.trans hgo₂⟩
      rw [listLoop_item hs.reads hfirst, attempt_bind, hitem]
      exact (bind_of_some hrest).trans rfl

/-- There is fuel for the whole list. -/
theorem InRow.length_le (hspec : ItemSpec s.symbols stop item T rel) {xs : List β}
    (h : InRow T xs w r) : xs.length + r.length ≤ w.length := by
  induction xs generalizing w with
  | nil =>
      obtain rfl : w = r := h
      simp
  | cons x xs ih =>
      obtain ⟨u, hx, hxs⟩ := h
      have := hspec.shorter x w u hx
      have := ih hxs
      rw [List.length_cons]
      omega

theorem Reads.length_le (h : s.Reads w) : w.length ≤ s.rest.length + 1 := by
  rcases h with ⟨-, rfl⟩ | ⟨-, -, hrest⟩
  · omega
  · rw [hrest, List.length_tail]
    omega

theorem listUntil_sound (hspec : ItemSpec s.symbols stop item T rel) (hs : s.Reading w)
    {as : List α} (h : listUntil (.sign stop) item s = (some (as, true), s')) :
    ∃ xs r, InRow T xs w (.sign stop :: r) ∧ List.Forall₂ rel as xs ∧
      s.Goes (.sign stop :: r) s' := by
  rw [listUntil, read_bind] at h
  exact listLoop_sound hspec hs h

theorem listUntil_complete (hspec : ItemSpec s.symbols stop item T rel) (hs : s.Reading w)
    {xs : List β} (hxs : InRow T xs w (.sign stop :: r)) :
    ∃ as s', listUntil (.sign stop) item s = (some (as, true), s') ∧
      List.Forall₂ rel as xs ∧ s.Goes (.sign stop :: r) s' := by
  have h₁ := hxs.length_le hspec
  have h₂ := Reads.length_le hs.reads
  simp only [List.length_cons] at h₁
  rw [listUntil, read_bind]
  exact listLoop_complete hspec hs hxs (by omega)

end Lists

/-! ## §3. Fields, arguments and choices. -/

/-- The first token of a variable is documentation or a type. -/
theorem VarDecl.firstKind_tokens {v : VarDecl} {symbols : SymbolTable} (hv : v.Ok symbols)
    (r : List Lexeme) : (∀ g, firstKind symbols (v.tokens ++ r) ≠ .sign g) ∧
      ∀ k, firstKind symbols (v.tokens ++ r) ≠ .kw k := by
  have hkind : firstKind symbols (v.tokens ++ r) = .autodoc ∨
      firstKind symbols (v.tokens ++ r) = .type ∨
      firstKind symbols (v.tokens ++ r) = .identifier := by
    obtain ⟨autodoc, t, name⟩ := v
    cases autodoc with
    | some line => exact .inl rfl
    | none => exact .inr (t.firstKind_tokens hv.1 (.word name :: r))
  rcases hkind with h | h | h
  · simp [h]
  · simp [h]
  · simp [h]

/-- A tree at the beginning of `w`, followed by a comma, or by the end of the list, which stays. -/
def BeforeComma {β : Type} (stop : Sign) (tokens : β → List Lexeme) (P : β → Prop) (x : β)
    (w r : List Lexeme) : Prop :=
  P x ∧ (w = tokens x ++ .sign .comma :: r ∨ (w = tokens x ++ r ∧ ∃ r', r = .sign stop :: r'))

section CommaLists

variable {β : Type} {stop : Sign} {tokens : β → List Lexeme} {P : β → Prop}

/-- Trees with commas behind them are a list with commas. -/
theorem InRow.commaTokens {w r : List Lexeme} {xs : List β} {symbols : SymbolTable}
    (hfirst : ∀ x w r, BeforeComma stop tokens P x w r → firstKind symbols w ≠ .sign stop)
    (h : InRow (BeforeComma stop tokens P) xs w (.sign stop :: r)) :
    ∃ trailing, w = Meddler.commaTokens tokens trailing xs ++ .sign stop :: r ∧ ∀ x ∈ xs, P x := by
  induction xs generalizing w with
  | nil => exact ⟨false, h, by simp⟩
  | cons x xs ih =>
      obtain ⟨u, ⟨hx, hu⟩, hxs⟩ := h
      obtain ⟨trailing, rfl, hall⟩ := ih hxs
      have hall' : ∀ y ∈ x :: xs, P y := List.forall_mem_cons.mpr ⟨hx, hall⟩
      rcases hu with rfl | ⟨rfl, r', hr'⟩
      · cases xs with
        | nil => exact ⟨true, by simp [Meddler.commaTokens], hall'⟩
        | cons y ys => exact ⟨trailing, by simp [Meddler.commaTokens], hall'⟩
      · cases xs with
        | nil => exact ⟨false, by simp [Meddler.commaTokens], hall'⟩
        | cons y ys =>
            -- nothing comes behind an item that has no comma
            obtain ⟨v, hy, -⟩ := hxs
            have := hfirst y _ v hy
            rw [hr'] at this
            exact absurd rfl this

theorem inRow_commaTokens {r : List Lexeme} {xs : List β} (trailing : Bool) (hall : ∀ x ∈ xs, P x) :
    InRow (BeforeComma stop tokens P) xs (commaTokens tokens trailing xs ++ .sign stop :: r)
      (.sign stop :: r) := by
  induction xs with
  | nil => rfl
  | cons x xs ih =>
      obtain ⟨hx, hxs⟩ := List.forall_mem_cons.mp hall
      cases xs with
      | nil =>
          refine ⟨_, ⟨hx, ?_⟩, rfl⟩
          cases trailing with
          | true => exact .inl (by simp [commaTokens])
          | false => exact .inr ⟨by simp [commaTokens], r, rfl⟩
      | cons y ys =>
          refine ⟨_, ⟨hx, .inl ?_⟩, ih hxs⟩
          simp [commaTokens]

end CommaLists

/-- What comes behind the tree is read as a separator. -/
theorem BeforeComma.separator {β : Type} {stop : Sign} {tokens : β → List Lexeme} {P : β → Prop}
    {x : β} {w r : List Lexeme} (h : BeforeComma stop tokens P x w r) (hstop : stop ≠ .comma)
    (msg : String) : ∃ u, w = tokens x ++ u ∧ ∀ s : State, s.Reading u →
      ∃ s', Meddler.separator (.sign stop) msg s = (some (), s') ∧ s.Goes r s' := by
  obtain ⟨-, rfl | ⟨rfl, r', rfl⟩⟩ := h
  · exact ⟨_, rfl, fun s hs => separator_comma hs _⟩
  · exact ⟨_, rfl, fun s hs => separator_stop hs hstop _⟩

section Items

variable {s s' : State} {w r : List Lexeme}

theorem parseField_spec (symbols : SymbolTable) :
    ItemSpec symbols .rbrace parseField
      (fun (v : VarDecl) w r => v.Ok symbols ∧ w = v.fieldTokens ++ r)
      (fun a v => a.bare = v.node) where
  sound s w a s' hsym hs h := by
    subst hsym
    rw [parseField] at h
    obtain ⟨field, s₁, h₁, h⟩ := bind_eq_some.mp h
    obtain ⟨_, s₂, h₂, h⟩ := bind_eq_some.mp h
    cases h
    obtain ⟨v, r, hv, rfl, hbare, hgo₁⟩ := parseVarDecl_sound hs h₁
    obtain ⟨r, rfl, hgo₂⟩ := expectSign_sound hgo₁.reading h₂
    exact ⟨v, r, ⟨hv, by simp [VarDecl.fieldTokens]⟩, hbare, hgo₁.trans hgo₂⟩
  complete s w v r hsym hs hv := by
    subst hsym
    obtain ⟨hv, rfl⟩ := hv
    rw [VarDecl.fieldTokens, List.append_assoc] at hs
    obtain ⟨a, s₁, h₁, hbare, hgo₁⟩ := parseVarDecl_complete hs hv
    obtain ⟨s₂, h₂, hgo₂⟩ := expectSign_complete hgo₁.reading "; expected"
    refine ⟨a, s₂, ?_, hbare, hgo₁.trans hgo₂⟩
    rw [parseField, bind_of_some h₁, bind_of_some h₂]
    rfl
  first v w r hv := by
    obtain ⟨hv, rfl⟩ := hv
    rw [VarDecl.fieldTokens, List.append_assoc]
    exact (v.firstKind_tokens hv _).1 _
  shorter v w r hv := by
    obtain ⟨-, rfl⟩ := hv
    simp only [VarDecl.fieldTokens, List.length_append, List.length_singleton]
    omega

theorem parseDirection_sound (hs : s.Reading w) {defaultDir d : Direction}
    (h : parseDirection defaultDir s = (some d, s')) :
    (∃ r, w = .kw d.keyword :: r ∧ s.Goes r s') ∨ (d = defaultDir ∧ s.Goes w s') := by
  have htaken : ∀ {s₁ : State} {k : Keyword}, s.Goes w s₁ → ∀ {s₂ : State},
      maybe (.kw k) s₁ = (some true, s₂) → ∃ r, w = .kw k :: r ∧ s.Goes r s₂ := by
    intro s₁ k hgo₁ s₂ h₂
    rcases maybe_sound hgo₁.reading (by simp) h₂ with ⟨-, x, r, rfl, hx, -, hgo₂⟩ | ⟨hno, -⟩
    · rw [Kind.wanted_eq (by simp), kind_eq_kw hgo₁.reading.grown] at hx
      exact ⟨r, by rw [hx], hgo₁.trans hgo₂⟩
    · cases hno
  have hpassed : ∀ {s₁ : State} {k : Keyword}, s.Goes w s₁ → ∀ {s₂ : State},
      maybe (.kw k) s₁ = (some false, s₂) → s.Goes w s₂ := by
    intro s₁ k hgo₁ s₂ h₂
    rcases maybe_sound hgo₁.reading (by simp) h₂ with ⟨hno, -⟩ | ⟨-, hgo₂⟩
    · cases hno
    · exact hgo₁.trans hgo₂
  rw [parseDirection] at h
  obtain ⟨b₁, s₁, h₁, h⟩ := bind_eq_some.mp h
  have hself : s.Goes w s := ⟨.refl s, hs⟩
  cases b₁ with
  | true =>
      cases h
      exact .inl (htaken hself h₁)
  | false =>
      have hgo₁ := hpassed hself h₁
      obtain ⟨b₂, s₂, h₂, h⟩ := bind_eq_some.mp h
      cases b₂ with
      | true =>
          cases h
          exact .inl (htaken hgo₁ h₂)
      | false =>
          have hgo₂ := hpassed hgo₁ h₂
          obtain ⟨b₃, s₃, h₃, h⟩ := bind_eq_some.mp h
          cases b₃ with
          | true =>
              cases h
              exact .inl (htaken hgo₂ h₃)
          | false =>
              cases h
              exact .inr ⟨rfl, hpassed hgo₂ h₃⟩

theorem parseDirection_complete (a : Argument) (defaultDir : Direction)
    (hs : s.Reading (a.tokens ++ r)) (ha : a.Ok s.symbols) :
    ∃ s', parseDirection defaultDir s = (some (a.direction.getD defaultDir), s') ∧
      s.Goes (a.var.tokens ++ r) s' := by
  obtain ⟨direction, v⟩ := a
  -- a keyword that is wanted is taken, another one is put back
  have htake : ∀ {s₁ : State} {k : Keyword}, s₁.Reading (.kw k :: (v.tokens ++ r)) →
      maybe (.kw k) s₁ = (some true, s₁.readAt (.kw k :: (v.tokens ++ r))) ∧
        s₁.Goes (v.tokens ++ r) (s₁.readAt (.kw k :: (v.tokens ++ r))) := by
    intro s₁ k hs₁
    exact maybe_taken hs₁ ((Kind.wanted_eq (k := .kw k) (by simp)).mpr
      ((kind_eq_kw hs₁.grown).mpr rfl))
  have hpass : ∀ {s₁ : State} (k k' : Keyword) {u : List Lexeme}, k' ≠ k →
      s₁.Reading (.kw k' :: u) → ∃ s₂, maybe (.kw k) s₁ = (some false, s₂) ∧
        s₁.Goes (.kw k' :: u) s₂ := by
    intro s₁ k k' u hne hs₁
    refine maybe_passed hs₁ (k := .kw k) (by simp) ?_
    rw [firstKind, (kind_eq_kw (k := k') hs₁.grown).mpr rfl]
    simpa using hne
  cases direction with
  -- no direction: all three keywords are put back
  | none =>
      have hno := fun k => (v.firstKind_tokens ha r).2 k
      obtain ⟨s₁, h₁, hgo₁⟩ := maybe_passed hs (k := .kw .in_) (by simp) (hno _)
      obtain ⟨s₂, h₂, hgo₂⟩ := maybe_passed hgo₁.reading (k := .kw .out) (by simp)
        (by rw [hgo₁.keeps.symbols]; exact hno _)
      have hgo₂ := hgo₁.trans hgo₂
      obtain ⟨s₃, h₃, hgo₃⟩ := maybe_passed hgo₂.reading (k := .kw .inout) (by simp)
        (by rw [hgo₂.keeps.symbols]; exact hno _)
      refine ⟨s₃, ?_, hgo₂.trans hgo₃⟩
      rw [parseDirection, bind_of_some h₁, if_neg (by simp), bind_of_some h₂, if_neg (by simp),
        bind_of_some h₃]
      rfl
  | some d =>
      cases d with
      | in_ =>
          obtain ⟨h₁, hgo₁⟩ := htake (k := .in_) hs
          refine ⟨_, ?_, hgo₁⟩
          rw [parseDirection, bind_of_some h₁]
          rfl
      | out =>
          obtain ⟨s₁, h₁, hgo₁⟩ := hpass .in_ .out (by simp) hs
          obtain ⟨h₂, hgo₂⟩ := htake (k := .out) hgo₁.reading
          refine ⟨_, ?_, hgo₁.trans hgo₂⟩
          rw [parseDirection, bind_of_some h₁, if_neg (by simp), bind_of_some h₂]
          rfl
      | inout =>
          obtain ⟨s₁, h₁, hgo₁⟩ := hpass .in_ .inout (by simp) hs
          obtain ⟨s₂, h₂, hgo₂⟩ := hpass .out .inout (by simp) hgo₁.reading
          obtain ⟨h₃, hgo₃⟩ := htake (k := .inout) hgo₂.reading
          refine ⟨_, ?_, (hgo₁.trans hgo₂).trans hgo₃⟩
          rw [parseDirection, bind_of_some h₁, if_neg (by simp), bind_of_some h₂,
            if_neg (by simp), bind_of_some h₃]
          rfl

/-- An argument begins with neither sign. -/
theorem Argument.firstKind_tokens {a : Argument} {symbols : SymbolTable} (hg : symbols.Grown)
    (ha : a.Ok symbols) (r : List Lexeme) (g : Sign) :
    firstKind symbols (a.tokens ++ r) ≠ .sign g := by
  obtain ⟨direction, v⟩ := a
  cases direction with
  | none => exact (v.firstKind_tokens ha r).1 g
  | some d => exact firstKind_word_ne_sign hg _ _ _

theorem Argument.tokens_pos (a : Argument) : 0 < a.tokens.length := by
  simp only [tokens, VarDecl.tokens, List.length_append, List.length_singleton]
  omega

theorem parseArgument_spec {symbols : SymbolTable} (hg : symbols.Grown) (defaultDir : Direction) :
    ItemSpec symbols .rparen (parseArgument defaultDir)
      (BeforeComma .rparen Argument.tokens (fun a => a.Ok symbols))
      (fun p a => p.bare = a.parameter defaultDir) where
  sound s w p s' hsym hs h := by
    subst hsym
    rw [parseArgument] at h
    obtain ⟨d, s₁, h₁, h⟩ := bind_eq_some.mp h
    obtain ⟨a, s₂, h₂, h⟩ := bind_eq_some.mp h
    obtain ⟨_, s₃, h₃, h⟩ := bind_eq_some.mp h
    cases h
    -- the direction, if it is there, and the variable
    obtain ⟨x, u, hx, rfl, hbare, hgo₂⟩ : ∃ x : Argument, ∃ u, x.Ok s.symbols ∧
        w = x.tokens ++ u ∧ Parameter.bare { a with direction := d } = x.parameter defaultDir ∧
        s.Goes u s₂ := by
      rcases parseDirection_sound hs h₁ with ⟨r, rfl, hgo₁⟩ | ⟨rfl, hgo₁⟩
      · obtain ⟨v, u, hv, rfl, hbare, hgo₂⟩ := parseVarDecl_sound hgo₁.reading h₂
        rw [hgo₁.keeps.symbols] at hv
        refine ⟨⟨some d, v⟩, u, hv, rfl, ?_, hgo₁.trans hgo₂⟩
        rw [Parameter.bare, Argument.parameter, ← hbare]
        rfl
      · obtain ⟨v, u, hv, rfl, hbare, hgo₂⟩ := parseVarDecl_sound hgo₁.reading h₂
        rw [hgo₁.keeps.symbols] at hv
        refine ⟨⟨none, v⟩, u, hv, rfl, ?_, hgo₁.trans hgo₂⟩
        rw [Parameter.bare, Argument.parameter, ← hbare]
        rfl
    obtain ⟨r, ⟨rfl, hgo₃⟩ | ⟨rfl, hgo₃⟩⟩ := separator_sound hgo₂.reading h₃
    · exact ⟨x, r, ⟨hx, .inl rfl⟩, hbare, hgo₂.trans hgo₃⟩
    · exact ⟨x, _, ⟨hx, .inr ⟨rfl, r, rfl⟩⟩, hbare, hgo₂.trans hgo₃⟩
  complete s w x r hsym hs hx := by
    subst hsym
    obtain ⟨u, rfl, hsep⟩ := hx.separator (by simp) ", or ) expected"
    obtain ⟨hx, -⟩ := hx
    obtain ⟨s₁, h₁, hgo₁⟩ := parseDirection_complete x defaultDir hs hx
    rw [Argument.Ok, ← hgo₁.keeps.symbols] at hx
    obtain ⟨a, s₂, h₂, hbare, hgo₂⟩ := parseVarDecl_complete hgo₁.reading hx
    obtain ⟨s₃, h₃, hgo₃⟩ := hsep s₂ hgo₂.reading
    refine ⟨{ a with direction := x.direction.getD defaultDir }, s₃, ?_, ?_,
      (hgo₁.trans hgo₂).trans hgo₃⟩
    · rw [parseArgument, bind_of_some h₁, bind_of_some h₂, bind_of_some h₃]
      rfl
    · rw [Parameter.bare, Argument.parameter, ← hbare]
  first x w r hx := by
    obtain ⟨hx, rfl | ⟨rfl, -⟩⟩ := hx
    · exact x.firstKind_tokens hg hx _ _
    · exact x.firstKind_tokens hg hx _ _
  shorter x w r hx := by
    obtain ⟨-, rfl | ⟨rfl, -⟩⟩ := hx
    · simp only [List.length_append, List.length_cons]
      omega
    · have := x.tokens_pos
      simp only [List.length_append]
      omega

theorem parseChoiceDecl_spec {symbols : SymbolTable} (hg : symbols.Grown) :
    ItemSpec symbols .rbrace parseChoiceDecl
      (BeforeComma .rbrace Choice.tokens (fun c => c.Ok symbols))
      (fun a c => a.bare = c.node) where
  sound s w a s' hsym hs h := by
    subst hsym
    -- what was read is a name, the arrow, a type and a separator
    rw [parseChoiceDecl] at h
    obtain ⟨name, s₁, h₁, h⟩ := bind_eq_some.mp h
    obtain ⟨_, s₂, h₂, h⟩ := bind_eq_some.mp h
    obtain ⟨choice, s₃, h₃, h⟩ := bind_eq_some.mp h
    obtain ⟨r, rfl, hname, hgo₁⟩ := parseId_sound hs h₁
    obtain ⟨r, rfl, hgo₂⟩ := expectSign_sound hgo₁.reading h₂
    have hgo₂ := hgo₁.trans hgo₂
    obtain ⟨t, r, ht, rfl, hbare, hgo₃⟩ := parseTypeDecl_sound hgo₂.reading h₃
    rw [hgo₂.keeps.symbols] at ht
    have hgo₃ := hgo₂.trans hgo₃
    rw [attempt_bind] at h
    rcases hsep : separator (.sign .rbrace) ", or \x7d expected" s₃ with ⟨_ | _, s₄⟩
    · rw [hsep] at h
      cases h
    · rw [hsep] at h
      cases h
      have hbare' : Alias.bare { choice with name := name } = t.node name := Alias.bare_rename hbare
      obtain ⟨u, ⟨rfl, hgo₄⟩ | ⟨rfl, hgo₄⟩⟩ := separator_sound hgo₃.reading hsep
      · exact ⟨⟨name, t⟩, u, ⟨⟨hname, ht⟩, .inl rfl⟩, hbare', hgo₃.trans hgo₄⟩
      · exact ⟨⟨name, t⟩, _, ⟨⟨hname, ht⟩, .inr ⟨rfl, u, rfl⟩⟩, hbare', hgo₃.trans hgo₄⟩
  complete s w c r hsym hs hc := by
    subst hsym
    -- the four parts are read one after another
    obtain ⟨u, rfl, hsep⟩ := hc.separator (by simp) ", or \x7d expected"
    obtain ⟨⟨hname, ht⟩, hw⟩ := hc
    obtain ⟨s₁, h₁, hgo₁⟩ := parseId_complete hs hname "Choice from selector enum expected."
    obtain ⟨s₂, h₂, hgo₂⟩ := expectSign_complete hgo₁.reading "=> expected"
    have hgo₂ := hgo₁.trans hgo₂
    rw [← hgo₂.keeps.symbols] at ht
    obtain ⟨a, s₃, h₃, hbare, hgo₃⟩ := parseTypeDecl_complete hgo₂.reading ht (by
      rcases hw with hw | ⟨hw, r', rfl⟩
      · obtain rfl := List.append_cancel_left hw
        simp [firstKind, Lexeme.kind]
      · obtain rfl := List.append_cancel_left hw
        simp [firstKind, Lexeme.kind])
    have hgo₃ := hgo₂.trans hgo₃
    obtain ⟨s₄, h₄, hgo₄⟩ := hsep s₃ hgo₃.reading
    refine ⟨{ a with name := c.name }, s₄, ?_, Alias.bare_rename hbare, hgo₃.trans hgo₄⟩
    rw [parseChoiceDecl, bind_of_some h₁, bind_of_some h₂, bind_of_some h₃, attempt_bind, h₄]
    rfl
  first c w r hc := by
    obtain ⟨-, rfl | ⟨rfl, -⟩⟩ := hc
    · exact firstKind_word_ne_sign hg _ _ _
    · exact firstKind_word_ne_sign hg _ _ _
  shorter c w r hc := by
    obtain ⟨-, rfl | ⟨rfl, -⟩⟩ := hc
    · simp only [Choice.tokens, List.length_append, List.length_cons]
      omega
    · simp only [Choice.tokens, List.length_append, List.length_cons]
      omega

end Items

end Metta.Meddler
