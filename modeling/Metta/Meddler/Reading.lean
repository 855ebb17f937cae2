/-
  Metta.Meddler.Reading — what the functions of the lexer read.

  A state is described by the lexemes that it goes on with; whether the first
  of them was put back makes no difference.

    • `SymbolTable.Grown` — a table with the keywords and with types,
    • `State.Reads` — what a state goes on with,
    • `wantLex_eq`, `maybe_eq`, `expect_eq_some`, `expect_ok`, …,
    • `State.Keeps` — all but the tokens and the classification is as before.
-/
import Metta.Meddler.Parser
import Metta.Meddler.Syntax

namespace Metta.Meddler

open Metta.Machine Attempt

/-! ## §1. Symbol tables. -/

namespace SymbolTable

/-- The table has what it had at the beginning, and else types only. -/
def Grown (t : SymbolTable) : Prop :=
  ∀ key, t.lookup key = populated.lookup key ∨ (populated.lookup key = none ∧
    (t.lookup key = some .type ∨ t.lookup key = some .interfaceType ∨
      t.lookup key = some .exceptionType))

theorem grown_populated : populated.Grown := fun _ => .inl rfl

theorem lookup_insert (t : SymbolTable) (key : Ident) (kind : Kind) (k : String) :
    (t.insert key kind).lookup k
      = if k = key.text ∧ t.lookup k = none then some kind else t.lookup k := by
  rw [insert]
  by_cases hk : k = key.text
  · subst hk
    cases h : t.lookup key.text with
    | none => simp
    | some x => simp [h]
  · split
    · simp [hk]
    · simp [hk, List.lookup_cons, beq_eq_false_iff_ne.mpr hk]

/-- `insert_checked` never fails. -/
theorem insertChecked_eq (t : SymbolTable) (key : Ident) (kind : Kind) :
    t.insertChecked key kind = true := by
  rw [insertChecked, lookup_insert]
  cases h : t.lookup key.text with
  | none => simp
  | some x => simp

theorem Grown.insert {t : SymbolTable} (h : t.Grown) (key : Ident) {kind : Kind}
    (hkind : kind = .type ∨ kind = .interfaceType ∨ kind = .exceptionType) :
    (t.insert key kind).Grown := by
  intro k
  rw [lookup_insert]
  split
  · next hnew =>
      rcases h k with hk | ⟨hk, -⟩
      · refine .inr ⟨by rw [← hk, hnew.2], ?_⟩
        rcases hkind with rfl | rfl | rfl
        · simp
        · simp
        · simp
      · refine .inr ⟨hk, ?_⟩
        rcases hkind with rfl | rfl | rfl
        · simp
        · simp
        · simp
  · exact h k

/-- A kind that no type has comes from the table as it was at the beginning. -/
theorem Grown.lookup_of_kindOf {t : SymbolTable} (h : t.Grown) {w : Ident} {k : Kind}
    (hw : t.kindOf w = k) (htype : k ≠ .type) (hid : k ≠ .identifier) :
    populated.lookup w.text = some k := by
  rw [kindOf] at hw
  rcases h w.text with hk | ⟨-, hk | hk | hk⟩
  · rw [← hk]
    cases hl : t.lookup w.text with
    | none =>
        rw [hl] at hw
        exact absurd hw.symm hid
    | some k' =>
        rw [hl] at hw
        cases k' with
        | builtinType => exact absurd hw.symm htype
        | interfaceType => exact absurd hw.symm htype
        | exceptionType => exact absurd hw.symm htype
        | _ => exact congrArg some hw
  · rw [hk] at hw
    exact absurd hw.symm htype
  · rw [hk] at hw
    exact absurd hw.symm htype
  · rw [hk] at hw
    exact absurd hw.symm htype

theorem Grown.kindOf_populated {t : SymbolTable} (h : t.Grown) {w : Ident} {k : Kind}
    (hw : populated.lookup w.text = some k) (htype : k ≠ .builtinType)
    (hinterface : k ≠ .interfaceType) (hexception : k ≠ .exceptionType) : t.kindOf w = k := by
  rw [kindOf]
  rcases h w.text with hk | ⟨hnone, -⟩
  · rw [hk, hw]
    cases k with
    | builtinType => exact absurd rfl htype
    | interfaceType => exact absurd rfl hinterface
    | exceptionType => exact absurd rfl hexception
    | _ => rfl
  · rw [hw] at hnone
    cases hnone

/-- In the table a keyword is under its spelling, and `..` is a token of its own. -/
def spelled (e : String × Kind) : Bool :=
  match e.2 with
  | .kw k => e.1 = k.spelling
  | .dotdot => e.1 = ".."
  | _ => true

theorem spelled_of_lookup {key : String} {k : Kind} (h : populated.lookup key = some k) :
    spelled (key, k) = true := by
  have hall : populated.all spelled = true := by decide
  obtain ⟨l₁, l₂, heq, -⟩ := List.lookup_eq_some_iff.mp h
  exact List.all_eq_true.mp hall _ (by rw [heq]; simp)

/-- **A keyword** is the one word of its kind. -/
theorem Grown.kindOf_eq_kw {t : SymbolTable} (h : t.Grown) {w : Ident} {k : Keyword} :
    t.kindOf w = .kw k ↔ w = k.ident := by
  constructor
  · intro hw
    have hl := spelled_of_lookup (h.lookup_of_kindOf hw (by simp) (by simp))
    exact Ident.ext (of_decide_eq_true hl)
  · rintro rfl
    refine h.kindOf_populated ?_ (by simp) (by simp) (by simp)
    cases k <;> decide

theorem Grown.kindOf_eq_dotdot {t : SymbolTable} (h : t.Grown) {w : Ident} :
    t.kindOf w = .dotdot ↔ w = .dotdot := by
  constructor
  · intro hw
    have hl := spelled_of_lookup (h.lookup_of_kindOf hw (by simp) (by simp))
    exact Ident.ext (of_decide_eq_true hl)
  · rintro rfl
    exact h.kindOf_populated (by decide) (by simp) (by simp) (by simp)

/-- The kinds of words. -/
theorem Grown.kindOf_cases {t : SymbolTable} (h : t.Grown) (w : Ident) :
    t.kindOf w = .identifier ∨ t.kindOf w = .type ∨ t.kindOf w = .dotdot ∨
      ∃ k, t.kindOf w = .kw k := by
  have hkinds : populated.all (fun e => match e.2 with
      | .kw _ | .dotdot | .builtinType => true
      | _ => false) = true := by decide
  rw [kindOf]
  rcases h w.text with hk | ⟨-, hk | hk | hk⟩
  · rw [hk]
    cases hl : populated.lookup w.text with
    | none => exact .inl rfl
    | some k =>
        obtain ⟨l₁, l₂, heq, -⟩ := List.lookup_eq_some_iff.mp hl
        have hkind := List.all_eq_true.mp hkinds (w.text, k) (by rw [heq]; simp)
        cases k with
        | kw k => exact .inr (.inr (.inr ⟨k, rfl⟩))
        | dotdot => exact .inr (.inr (.inl rfl))
        | builtinType => exact .inr (.inl rfl)
        | _ => cases hkind
  · rw [hk]
    exact .inr (.inl rfl)
  · rw [hk]
    exact .inr (.inl rfl)
  · rw [hk]
    exact .inr (.inl rfl)

end SymbolTable

/-! ## §2. Lexemes of a kind. -/

/-- The kind of the first lexeme. -/
def firstKind (t : SymbolTable) : List Lexeme → Kind
  | [] => .eof
  | x :: _ => x.kind t

section Wanted

variable {t : SymbolTable} {x : Lexeme}

theorem Kind.wanted_eq {k got : Kind} (hk : k ≠ .identifier) :
    k.wanted got = true ↔ got = k := by
  cases k with
  | identifier => exact absurd rfl hk
  | _ => simp [Kind.wanted, eq_comm]

/-- A word that is wanted as an identifier. -/
theorem wanted_identifier (h : Kind.wanted .identifier (x.kind t) = true) :
    ∃ w, x = .word w ∧ t.IsId w := by
  cases x with
  | word w => exact ⟨w, rfl, h⟩
  | _ => cases h

theorem kind_eq_sign {s : Sign} (ht : t.Grown) : x.kind t = .sign s ↔ x = .sign s := by
  cases x with
  | sign s' => simp [Lexeme.kind]
  | word w =>
      rcases ht.kindOf_cases w with h | h | h | ⟨k, h⟩ <;> simp [Lexeme.kind, h]
  | _ => simp [Lexeme.kind]

theorem firstKind_word_ne_sign (ht : t.Grown) (a : Ident) (r : List Lexeme) (s : Sign) :
    firstKind t (.word a :: r) ≠ .sign s := by
  rw [firstKind, Ne, kind_eq_sign ht]
  simp

theorem kind_eq_kw {k : Keyword} (ht : t.Grown) : x.kind t = .kw k ↔ x = .kw k := by
  cases x with
  | word w => simp [Lexeme.kind, Lexeme.kw, ht.kindOf_eq_kw]
  | _ => simp [Lexeme.kind, Lexeme.kw]

theorem kind_eq_dotdot (ht : t.Grown) : x.kind t = .dotdot ↔ x = .word .dotdot := by
  cases x with
  | word w => simp [Lexeme.kind, ht.kindOf_eq_dotdot]
  | _ => simp [Lexeme.kind]

theorem kind_eq_type : x.kind t = .type ↔ ∃ w, x = .word w ∧ t.kindOf w = .type := by
  cases x with
  | word w => simp [Lexeme.kind]
  | _ => simp [Lexeme.kind]

theorem kind_eq_identifier : x.kind t = .identifier ↔ ∃ w, x = .word w ∧ t.kindOf w = .identifier := by
  cases x with
  | word w => simp [Lexeme.kind]
  | _ => simp [Lexeme.kind]

theorem kind_eq_cardinal (ht : t.Grown) : x.kind t = .cardinal ↔ ∃ v, x = .cardinal v := by
  cases x with
  | word w =>
      rcases ht.kindOf_cases w with h | h | h | ⟨k, h⟩ <;> simp [Lexeme.kind, h]
  | _ => simp [Lexeme.kind]

theorem kind_eq_autodoc (ht : t.Grown) : x.kind t = .autodoc ↔ ∃ line, x = .autodoc line := by
  cases x with
  | word w =>
      rcases ht.kindOf_cases w with h | h | h | ⟨k, h⟩ <;> simp [Lexeme.kind, h]
  | _ => simp [Lexeme.kind]

end Wanted

/-! ## §3. What a state goes on with. -/

namespace State

/-- The state when the first lexeme of `w` was read. -/
def readAt (s : State) (w : List Lexeme) : State :=
  { s with rest := w.tail, cur := w.head?, curKind := firstKind s.symbols w, nextKind := none }

/-- The state goes on with `w`: nothing was put back, or the first token was. -/
def Reads (s : State) (w : List Lexeme) : Prop :=
  (s.nextKind = none ∧ s.rest = w) ∨
  (s.nextKind = some (firstKind s.symbols w) ∧ s.cur = w.head? ∧ s.rest = w.tail)

variable {s s' : State} {w w' : List Lexeme}

/-- A token that was put back is read as if it had not been read. -/
theorem Reads.lex_eq (h : s.Reads w) : s.lex = s.readAt w := by
  obtain ⟨rest, cur, curKind, nextKind⟩ := s
  rcases h with ⟨hnext, hrest⟩ | ⟨hnext, hcur, hrest⟩
  · subst hnext
    subst hrest
    cases rest with
    | nil => rfl
    | cons x r => rfl
  · simp only at hnext hcur hrest
    rw [hnext, hcur, hrest]
    rfl

theorem reads_readAt (s : State) (x : Lexeme) (r : List Lexeme) : (s.readAt (x :: r)).Reads r :=
  .inl ⟨rfl, rfl⟩

theorem reads_lexback (s : State) (w : List Lexeme) : (s.readAt w).lexback.Reads w :=
  .inr ⟨rfl, rfl, rfl⟩

/-- All but the tokens, and what the tree does not say about the source, is as before. -/
structure Keeps (s s' : State) : Prop where
  symbols : s'.symbols = s.symbols
  tree : s'.parseTree.map InterfaceNode.bare = s.parseTree.map InterfaceNode.bare
  isLocal : s'.isLocal = s.isLocal
  isFinal : s'.isFinal = s.isFinal
  isIdempotent : s'.isIdempotent = s.isIdempotent
  autodocBuffer : s'.autodocBuffer = s.autodocBuffer
  errors : s'.errors = s.errors

theorem Keeps.refl (s : State) : s.Keeps s := ⟨rfl, rfl, rfl, rfl, rfl, rfl, rfl⟩

theorem Keeps.trans {s'' : State} (h : s.Keeps s') (h' : s'.Keeps s'') : s.Keeps s'' :=
  ⟨h'.symbols.trans h.symbols, h'.tree.trans h.tree, h'.isLocal.trans h.isLocal,
    h'.isFinal.trans h.isFinal, h'.isIdempotent.trans h.isIdempotent,
    h'.autodocBuffer.trans h.autodocBuffer, h'.errors.trans h.errors⟩

/-- A state in the body of an interface that goes on with `w`. -/
structure Reading (s : State) (w : List Lexeme) : Prop where
  reads : s.Reads w
  grown : s.symbols.Grown
  tree : s.parseTree.isSome

/-- From `s` the parser has come to `s'`, which goes on with `r`. -/
structure Goes (s : State) (r : List Lexeme) (s' : State) : Prop where
  keeps : s.Keeps s'
  reading : s'.Reading r

theorem Reading.goes (h : s.Reading w) {r : List Lexeme} (hkeeps : s.Keeps s') (hreads : s'.Reads r) :
    s.Goes r s' := by
  refine ⟨hkeeps, hreads, by rw [hkeeps.symbols]; exact h.grown, ?_⟩
  have := congrArg Option.isSome hkeeps.tree
  rwa [Option.isSome_map, Option.isSome_map, h.tree] at this

theorem Goes.trans {r r' : List Lexeme} {s'' : State} (h : s.Goes r s') (h' : s'.Goes r' s'') :
    s.Goes r' s'' := ⟨h.keeps.trans h'.keeps, h'.reading⟩

theorem keeps_readAt (s : State) (w : List Lexeme) : s.Keeps (s.readAt w) :=
  ⟨rfl, rfl, rfl, rfl, rfl, rfl, rfl⟩

theorem keeps_lexback (s : State) : s.Keeps s.lexback := ⟨rfl, rfl, rfl, rfl, rfl, rfl, rfl⟩

theorem Reading.goes_readAt {x : Lexeme} {r : List Lexeme} (h : s.Reading (x :: r)) :
    s.Goes r (s.readAt (x :: r)) := h.goes (keeps_readAt _ _) (reads_readAt _ _ _)

theorem Reading.goes_lexback (h : s.Reading w) : s.Goes w (s.readAt w).lexback :=
  h.goes ((keeps_readAt _ _).trans (keeps_lexback _)) (reads_lexback _ _)

end State

open State

/-! ## §4. The functions of the lexer. -/

section Lexer

variable {s s' : State} {w r : List Lexeme}

theorem lex_eq (h : s.Reads w) : lex s = (some (), s.readAt w) := by
  rw [← h.lex_eq]
  rfl

theorem wantLex_eq (h : s.Reads w) (k : Kind) :
    wantLex k s = (some (k.wanted (firstKind s.symbols w)), s.readAt w) := by
  rw [wantLex, bind_of_some (lex_eq h)]
  rfl

theorem maybe_of_wanted (h : s.Reads w) {k : Kind} (hk : k.wanted (firstKind s.symbols w) = true) :
    maybe k s = (some true, s.readAt w) := by
  rw [maybe, bind_of_some (wantLex_eq h k), hk]
  rfl

theorem maybe_of_not (h : s.Reads w) {k : Kind} (hk : k.wanted (firstKind s.symbols w) = false) :
    maybe k s = (some false, (s.readAt w).lexback) := by
  rw [maybe, bind_of_some (wantLex_eq h k), hk]
  rfl

/-- A token that may be there. -/
theorem maybe_eq_some (h : s.Reads w) {k : Kind} {b : Bool} (hm : maybe k s = (some b, s')) :
    b = k.wanted (firstKind s.symbols w) ∧
      s' = if b then s.readAt w else (s.readAt w).lexback := by
  cases hk : k.wanted (firstKind s.symbols w) with
  | true =>
      rw [maybe_of_wanted h hk] at hm
      cases hm
      exact ⟨rfl, rfl⟩
  | false =>
      rw [maybe_of_not h hk] at hm
      cases hm
      exact ⟨rfl, rfl⟩

theorem Kind.wanted_eof {k : Kind} (hk : k ≠ .eof) : k.wanted .eof = false := by
  cases k with
  | eof => exact absurd rfl hk
  | _ => rfl

/-- The first lexeme is one that is wanted. -/
theorem firstKind_wanted {k : Kind} (hk : k ≠ .eof) {t : SymbolTable}
    (h : k.wanted (firstKind t w) = true) : ∃ x r, w = x :: r ∧ k.wanted (x.kind t) = true := by
  cases w with
  | nil =>
      rw [firstKind, Kind.wanted_eof hk] at h
      cases h
  | cons x r => exact ⟨x, r, rfl, h⟩

theorem expect_ok {x : Lexeme} (h : s.Reads (x :: r)) {k : Kind}
    (hk : k.wanted (x.kind s.symbols) = true) (msg : String) :
    expect k msg s = (some (), s.readAt (x :: r)) := by
  rw [expect, bind_of_some (wantLex_eq h k), firstKind, hk]
  rfl

theorem expect_eq_some (h : s.Reads w) {k : Kind} (hk : k ≠ .eof) {msg : String}
    (he : expect k msg s = (some (), s')) :
    ∃ x r, w = x :: r ∧ k.wanted (x.kind s.symbols) = true ∧ s' = s.readAt (x :: r) := by
  rw [expect, bind_of_some (wantLex_eq h k)] at he
  cases hwant : k.wanted (firstKind s.symbols w) with
  | true =>
      obtain ⟨x, r, rfl, hx⟩ := firstKind_wanted hk hwant
      rw [hwant] at he
      cases he
      exact ⟨x, r, rfl, hx, rfl⟩
  | false =>
      rw [hwant] at he
      cases he

theorem expectSilently_ok {x : Lexeme} (h : s.Reads (x :: r)) {k : Kind}
    (hk : k.wanted (x.kind s.symbols) = true) :
    expectSilently k s = (some (), s.readAt (x :: r)) := by
  rw [expectSilently, bind_of_some (wantLex_eq h k), firstKind, hk]
  rfl

theorem expectSilently_eq_some (h : s.Reads w) {k : Kind} (hk : k ≠ .eof)
    (he : expectSilently k s = (some (), s')) :
    ∃ x r, w = x :: r ∧ k.wanted (x.kind s.symbols) = true ∧ s' = s.readAt (x :: r) := by
  rw [expectSilently, bind_of_some (wantLex_eq h k)] at he
  cases hwant : k.wanted (firstKind s.symbols w) with
  | true =>
      obtain ⟨x, r, rfl, hx⟩ := firstKind_wanted hk hwant
      rw [hwant] at he
      cases he
      exact ⟨x, r, rfl, hx, rfl⟩
  | false =>
      rw [hwant] at he
      cases he

end Lexer

/-! ## §5. Signs, keywords and identifiers in an interface. -/

section Reading

variable {s s' : State} {w r : List Lexeme} {msg : String}

theorem expectSign_sound (hs : s.Reading w) {g : Sign}
    (h : expect (.sign g) msg s = (some (), s')) : ∃ r, w = .sign g :: r ∧ s.Goes r s' := by
  obtain ⟨x, r, rfl, hx, rfl⟩ := expect_eq_some hs.reads (by simp) h
  rw [Kind.wanted_eq (by simp), kind_eq_sign hs.grown] at hx
  subst hx
  exact ⟨r, rfl, hs.goes_readAt⟩

theorem expectSign_complete (hs : s.Reading (.sign g :: r)) (msg : String) :
    ∃ s', expect (.sign g) msg s = (some (), s') ∧ s.Goes r s' :=
  ⟨_, expect_ok hs.reads ((Kind.wanted_eq (k := .sign g) (by simp)).mpr rfl) msg, hs.goes_readAt⟩

theorem expectKw_sound (hs : s.Reading w) {k : Keyword}
    (h : expect (.kw k) msg s = (some (), s')) : ∃ r, w = .kw k :: r ∧ s.Goes r s' := by
  obtain ⟨x, r, rfl, hx, rfl⟩ := expect_eq_some hs.reads (by simp) h
  rw [Kind.wanted_eq (by simp), kind_eq_kw hs.grown] at hx
  subst hx
  exact ⟨r, rfl, hs.goes_readAt⟩

theorem expectKw_complete {k : Keyword} (hs : s.Reading (.kw k :: r)) (msg : String) :
    ∃ s', expect (.kw k) msg s = (some (), s') ∧ s.Goes r s' :=
  ⟨_, expect_ok hs.reads ((Kind.wanted_eq (by simp)).mpr ((kind_eq_kw hs.grown).mpr rfl)) msg,
    hs.goes_readAt⟩

theorem parseId_sound (hs : s.Reading w) {a : Ident} (h : parseId msg s = (some a, s')) :
    ∃ r, w = .word a :: r ∧ s.symbols.IsId a ∧ s.Goes r s' := by
  rw [parseId] at h
  obtain ⟨_, s₁, h₁, h₂⟩ := bind_eq_some.mp h
  obtain ⟨x, r, rfl, hx, rfl⟩ := expect_eq_some hs.reads (by simp) h₁
  obtain ⟨a', rfl, ha'⟩ := wanted_identifier hx
  cases h₂
  exact ⟨r, rfl, ha', hs.goes_readAt⟩

theorem parseId_complete {a : Ident} (hs : s.Reading (.word a :: r)) (ha : s.symbols.IsId a)
    (msg : String) : ∃ s', parseId msg s = (some a, s') ∧ s.Goes r s' := by
  refine ⟨s.readAt (.word a :: r), ?_, hs.goes_readAt⟩
  rw [parseId, bind_of_some (expect_ok hs.reads ha msg)]
  rfl

/-- A token that may be there: it was, or nothing has been read. -/
theorem maybe_sound (hs : s.Reading w) {k : Kind} (hk : k ≠ .eof) {b : Bool}
    (h : maybe k s = (some b, s')) :
    (b = true ∧ ∃ x r, w = x :: r ∧ k.wanted (x.kind s.symbols) = true ∧
      s' = s.readAt (x :: r) ∧ s.Goes r s') ∨ (b = false ∧ s.Goes w s') := by
  obtain ⟨hb, rfl⟩ := maybe_eq_some hs.reads h
  cases b with
  | true =>
      obtain ⟨x, r, rfl, hx⟩ := firstKind_wanted hk hb.symm
      exact .inl ⟨rfl, x, r, rfl, hx, rfl, hs.goes_readAt⟩
  | false => exact .inr ⟨rfl, hs.goes_lexback⟩

theorem maybe_taken {x : Lexeme} (hs : s.Reading (x :: r)) {k : Kind}
    (hk : k.wanted (x.kind s.symbols) = true) :
    maybe k s = (some true, s.readAt (x :: r)) ∧ s.Goes r (s.readAt (x :: r)) :=
  ⟨maybe_of_wanted hs.reads hk, hs.goes_readAt⟩

theorem maybe_passed (hs : s.Reading w) {k : Kind} (hk : k ≠ .identifier)
    (hno : firstKind s.symbols w ≠ k) : ∃ s', maybe k s = (some false, s') ∧ s.Goes w s' := by
  refine ⟨_, maybe_of_not hs.reads ?_, hs.goes_lexback⟩
  rwa [← Bool.not_eq_true, Kind.wanted_eq hk]

end Reading

end Metta.Meddler
