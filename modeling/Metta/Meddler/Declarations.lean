/-
  Metta.Meddler.Declarations — exceptions, types and methods.

  Every function that parses a declaration reads the tokens of a tree and adds
  to the tree of the parser what that tree declares, or an error is reported;
  and the tokens of every declaration are parsed.

    • `State.Goes.readId`, `State.Goes.takeId`, … — one step of such a function,
    • `State.Declares` — a declaration was added,
    • `parseException_sound`, `parseTypeAlias_sound`, …, `parseMethod_sound`.
-/
import Metta.Meddler.Lists

namespace Metta.Meddler

open Metta.Machine Attempt State

/-! ## §1. Steps. -/

namespace State.Goes

variable {s s₁ s₂ : State} {w r : List Lexeme} {msg : String}

theorem isId (hgo : s.Goes w s₁) {a : Ident} : s₁.symbols.IsId a ↔ s.symbols.IsId a := by
  rw [hgo.keeps.symbols]

/-- A token that has to be there: what has been read. -/
theorem readExpect (hgo : s.Goes w s₁) {k : Kind} (hk : k ≠ .eof)
    (h : expect k msg s₁ = (some (), s₂)) :
    ∃ x r, w = x :: r ∧ k.wanted (x.kind s.symbols) = true ∧ s₂ = s₁.readAt (x :: r) ∧ s.Goes r s₂ := by
  obtain ⟨x, r, rfl, hx, rfl⟩ := expect_eq_some hgo.reading.reads hk h
  rw [hgo.keeps.symbols] at hx
  exact ⟨x, r, rfl, hx, rfl, hgo.trans hgo.reading.goes_readAt⟩

theorem takeExpect {x : Lexeme} (hgo : s.Goes (x :: r) s₁) {k : Kind}
    (hk : k.wanted (x.kind s.symbols) = true) (msg : String) :
    expect k msg s₁ = (some (), s₁.readAt (x :: r)) ∧ s.Goes r (s₁.readAt (x :: r)) := by
  rw [← hgo.keeps.symbols] at hk
  exact ⟨expect_ok hgo.reading.reads hk msg, hgo.trans hgo.reading.goes_readAt⟩

theorem readSign (hgo : s.Goes w s₁) {g : Sign} (h : expect (.sign g) msg s₁ = (some (), s₂)) :
    ∃ r, w = .sign g :: r ∧ s₂.nextKind = none ∧ s.Goes r s₂ := by
  obtain ⟨x, r, rfl, hx, rfl, hgo'⟩ := hgo.readExpect (by simp) h
  rw [Kind.wanted_eq (by simp), ← hgo.keeps.symbols, kind_eq_sign hgo.reading.grown] at hx
  subst hx
  exact ⟨r, rfl, rfl, hgo'⟩

theorem takeSign {g : Sign} (hgo : s.Goes (.sign g :: r) s₁) (msg : String) :
    ∃ s₂, expect (.sign g) msg s₁ = (some (), s₂) ∧ s₂.nextKind = none ∧ s.Goes r s₂ := by
  obtain ⟨h, hgo'⟩ := hgo.takeExpect ((Kind.wanted_eq (k := .sign g) (by simp)).mpr rfl) msg
  exact ⟨_, h, rfl, hgo'⟩

theorem readKw (hgo : s.Goes w s₁) {k : Keyword} (h : expect (.kw k) msg s₁ = (some (), s₂)) :
    ∃ r, w = .kw k :: r ∧ s.Goes r s₂ := by
  obtain ⟨r, rfl, hgo'⟩ := expectKw_sound hgo.reading h
  exact ⟨r, rfl, hgo.trans hgo'⟩

theorem takeKw {k : Keyword} (hgo : s.Goes (.kw k :: r) s₁) (msg : String) :
    ∃ s₂, expect (.kw k) msg s₁ = (some (), s₂) ∧ s.Goes r s₂ := by
  obtain ⟨s₂, h, hgo'⟩ := expectKw_complete hgo.reading msg
  exact ⟨s₂, h, hgo.trans hgo'⟩

theorem readId (hgo : s.Goes w s₁) {a : Ident} (h : parseId msg s₁ = (some a, s₂)) :
    ∃ r, w = .word a :: r ∧ s.symbols.IsId a ∧ s.Goes r s₂ := by
  obtain ⟨r, rfl, ha, hgo'⟩ := parseId_sound hgo.reading h
  exact ⟨r, rfl, hgo.isId.mp ha, hgo.trans hgo'⟩

theorem takeId {a : Ident} (hgo : s.Goes (.word a :: r) s₁) (ha : s.symbols.IsId a) (msg : String) :
    ∃ s₂, parseId msg s₁ = (some a, s₂) ∧ s.Goes r s₂ := by
  obtain ⟨s₂, h, hgo'⟩ := parseId_complete hgo.reading (hgo.isId.mpr ha) msg
  exact ⟨s₂, h, hgo.trans hgo'⟩

theorem readType (hgo : s.Goes w s₁) {a : Alias} (h : parseTypeDecl .new s₁ = (some a, s₂)) :
    ∃ t : TypeDecl, ∃ r, t.Ok s.symbols ∧ w = t.tokens ++ r ∧ a.bare = t.node .empty ∧ s.Goes r s₂ := by
  obtain ⟨t, r, ht, rfl, hbare, hgo'⟩ := parseTypeDecl_sound hgo.reading h
  rw [hgo.keeps.symbols] at ht
  exact ⟨t, r, ht, rfl, hbare, hgo.trans hgo'⟩

theorem takeType {t : TypeDecl} (hgo : s.Goes (t.tokens ++ r) s₁) (ht : t.Ok s.symbols)
    (hnext : firstKind s.symbols r ≠ .sign .reference) :
    ∃ a s₂, parseTypeDecl .new s₁ = (some a, s₂) ∧ a.bare = t.node .empty ∧ s.Goes r s₂ := by
  rw [← hgo.keeps.symbols] at ht hnext
  obtain ⟨a, s₂, h, hbare, hgo'⟩ := parseTypeDecl_complete hgo.reading ht hnext
  exact ⟨a, s₂, h, hbare, hgo.trans hgo'⟩

/-- A known type: the base of a set or of an array. -/
theorem readKnownType (hgo : s.Goes w s₁) (h : expect .type msg s₁ = (some (), s₂)) :
    ∃ a r, w = .word a :: r ∧ s.symbols.kindOf a = .type ∧ s₂.currentToken = a ∧ s.Goes r s₂ := by
  obtain ⟨x, r, rfl, hx, rfl, hgo'⟩ := hgo.readExpect (by simp) h
  rw [Kind.wanted_eq (by simp), kind_eq_type] at hx
  obtain ⟨a, rfl, ha⟩ := hx
  exact ⟨a, r, rfl, ha, rfl, hgo'⟩

theorem takeKnownType {a : Ident} (hgo : s.Goes (.word a :: r) s₁) (ha : s.symbols.kindOf a = .type)
    (msg : String) : ∃ s₂, expect .type msg s₁ = (some (), s₂) ∧ s₂.currentToken = a ∧ s.Goes r s₂ := by
  obtain ⟨h, hgo'⟩ := hgo.takeExpect ((Kind.wanted_eq (k := .type) (by simp)).mpr ha) msg
  exact ⟨_, h, rfl, hgo'⟩

/-- `configure_type` at the end of a declaration. -/
theorem configure (hgo : s.Goes w s₁) (hnext : s₁.nextKind = none) (a : Alias) :
    ∃ a' s₂, configureType a s₁ = (some a', s₂) ∧ a'.bare = a.bare ∧ s₂.nextKind = none ∧
      s.Goes w s₂ := by
  obtain ⟨a', s₂, h, hbare, hgo'⟩ := configureType_goes hgo.reading a
  refine ⟨a', s₂, h, hbare, ?_, hgo.trans hgo'⟩
  obtain ⟨tree, htree⟩ := Option.isSome_iff_exists.mp hgo.reading.tree
  rw [configureType, htree] at h
  obtain ⟨-, rfl⟩ := Prod.mk.inj h
  exact hnext

end State.Goes

/-- The keyword that a declaration begins with was read. -/
theorem mustMatch_sound {α : Type} {k : Kind} {f : Unit → Parse α} {s s' : State} {a : α}
    (h : (mustMatch k >>= f) s = (some a, s')) : s.curKind = k ∧ f () s = (some a, s') := by
  obtain ⟨_, s₁, h₁, h₂⟩ := bind_eq_some.mp h
  rw [mustMatch, bind_of_some (matches_apply k s)] at h₁
  split at h₁
  · next hk =>
      cases h₁
      exact ⟨of_decide_eq_true hk, h₂⟩
  · cases h₁

theorem mustMatch_complete {α : Type} {k : Kind} {s : State} (hk : s.curKind = k)
    (f : Unit → Parse α) : (mustMatch k >>= f) s = f () s := by
  refine bind_of_some ?_
  rw [mustMatch, bind_of_some (matches_apply k s), if_pos (decide_eq_true hk)]
  rfl

/-- The caller's own error. -/
theorem orError_sound {α : Type} {p : Parse α} {msg : String} {s s' : State} {a : α}
    (h : p.orError msg s = (some a, s')) : p s = (some a, s') := by
  rw [Parse.orError, attempt_bind] at h
  rcases hp : p s with ⟨_ | b, s₁⟩
  · rw [hp] at h
    cases h
  · rw [hp] at h
    exact h

theorem orError_complete {α : Type} {p : Parse α} {s s' : State} {a : α} (h : p s = (some a, s'))
    (msg : String) : p.orError msg s = (some a, s') := by
  rw [Parse.orError, attempt_bind, h]
  rfl

/-! ## §2. Adding a declaration. -/

/-- The node with what a declaration adds to it. -/
def InterfaceNode.declare (n : InterfaceNode) (d : Decl) : InterfaceNode :=
  { n with
    types := n.types ++ d.typeAlias.toList
    exceptions := n.exceptions ++ d.exceptionNode.toList
    methods := n.methods ++ (d.methodNode n.name).toList }

/-- From `s` the parser has come to `s'`, which goes on with `r`, and has added `d`. -/
structure State.Declares (s : State) (d : Decl) (r : List Lexeme) (s' : State) : Prop where
  symbols : s'.symbols = d.symbols s.symbols
  tree : s'.parseTree.map InterfaceNode.bare = s.parseTree.map fun n => n.bare.declare d
  isIdempotent : s.isIdempotent = false → s'.isIdempotent = false
  errors : s'.errors = s.errors
  reading : s'.Reading r

/-- A node is added, and its name gets known. -/
theorem State.Goes.add {s s₁ : State} {r : List Lexeme} (hgo : s.Goes r s₁)
    (hnext : s₁.nextKind = none) {d : Decl} {f : InterfaceNode → InterfaceNode}
    (hf : ∀ n : InterfaceNode, (f n).bare = n.bare.declare d) {name : Ident} {kind : Kind}
    (hkind : kind = .type ∨ kind = .exceptionType)
    (hsym : d.symbols s.symbols = s.symbols.insert name kind) :
    ∃ s', (addToTree f >>= fun _ => insertChecked name kind) s₁ = (some (), s') ∧
      s.Declares d r s' := by
  refine ⟨{ s₁ with parseTree := s₁.parseTree.map f, symbols := s₁.symbols.insert name kind }, ?_,
    ?_⟩
  · rw [addToTree, modify_bind, insertChecked, read_bind, modify_bind,
      SymbolTable.insertChecked_eq, if_pos rfl]
    rfl
  · -- the token after the declaration was read, and none is put back
    have hreads : s₁.rest = r := by
      rcases hgo.reading.reads with ⟨-, hrest⟩ | ⟨hback, -⟩
      · exact hrest
      · rw [hnext] at hback
        cases hback
    constructor
    case symbols => rw [hsym, ← hgo.keeps.symbols]
    -- there is a tree afterwards exactly if there was one before
    case tree =>
      have htree := hgo.keeps.tree
      cases h₁ : s₁.parseTree with
      | none =>
          rw [h₁] at htree
          cases h : s.parseTree with
          | none => rfl
          | some n =>
              rw [h] at htree
              cases htree
      | some n₁ =>
          rw [h₁] at htree
          cases h : s.parseTree with
          | none =>
              rw [h] at htree
              cases htree
          | some n =>
              rw [h, Option.map_some, Option.map_some, Option.some_inj] at htree
              simp only [Option.map_some, hf, htree]
    case isIdempotent => exact fun h => hgo.keeps.isIdempotent.trans h
    case errors => exact hgo.keeps.errors
    case reading =>
      refine ⟨.inl ⟨hnext, hreads⟩, hgo.reading.grown.insert name ?_, ?_⟩
      · exact hkind.imp id .inr
      · rw [Option.isSome_map]
        exact hgo.reading.tree

/-- A type is added. -/
theorem State.Goes.addType {s s₁ : State} {r : List Lexeme} (hgo : s.Goes r s₁)
    (hnext : s₁.nextKind = none) {d : Decl} {t : TypeAlias} (ht : d.typeAlias = some t.bare)
    (hsym : d.symbols s.symbols = s.symbols.insert t.alias.name .type) :
    ∃ s', addType t s₁ = (some (), s') ∧ s.Declares d r s' := by
  refine hgo.add hnext (fun n => ?_) (.inl rfl) hsym
  have hexception : d.exceptionNode = none := by
    cases d with
    | exception => cases ht
    | _ => rfl
  have hmethod : ∀ i, d.methodNode i = none := by
    intro i
    cases d with
    | method => cases ht
    | _ => rfl
  simp [InterfaceNode.bare, InterfaceNode.declare, ht, hexception, hmethod]

/-- A declaration has been read, whose first token is before `w`. -/
def State.Parsed (s : State) (w : List Lexeme) (s' : State) : Prop :=
  ∃ (d : Decl) (r : List Lexeme), d.Ok s.symbols ∧ w = d.tokens ++ r ∧ s.Declares d r s'

/-! ## §3. Types without fields. -/

section Types

variable {s s' : State} {w r : List Lexeme}

theorem State.Reading.self (hs : s.Reading w) : s.Goes w s := ⟨.refl s, hs⟩

theorem parseTypeAlias_sound (hs : s.Reading w) (h : parseTypeAlias s = (some (), s')) :
    s.Parsed (.kw .type_ :: w) s' := by
  obtain ⟨-, h⟩ := mustMatch_sound h
  obtain ⟨a, s₁, h₁, h⟩ := bind_eq_some.mp h
  obtain ⟨t, r, ht, rfl, hbare, hgo₁⟩ := hs.self.readType (orError_sound h₁)
  obtain ⟨name, s₂, h₂, h⟩ := bind_eq_some.mp h
  obtain ⟨r, rfl, hname, hgo₂⟩ := hgo₁.readId h₂
  obtain ⟨_, s₃, h₃, h⟩ := bind_eq_some.mp h
  obtain ⟨r, rfl, hnext, hgo₃⟩ := hgo₂.readSign h₃
  obtain ⟨s₄, h₄, hadd⟩ := hgo₃.addType hnext (d := .type t name) (t := .type { a with name := name })
    (by rw [TypeAlias.bare, Alias.bare_rename hbare]; rfl) rfl
  cases h₄.symm.trans h
  exact ⟨.type t name, r, ⟨ht, hname⟩, by simp [Decl.tokens], hadd⟩

theorem parseTypeAlias_complete {t : TypeDecl} {name : Ident} (hk : s.curKind = .kw .type_)
    (hs : s.Reading (t.tokens ++ .word name :: .sign .semicolon :: r))
    (ht : t.Ok s.symbols) (hname : s.symbols.IsId name) :
    ∃ s', parseTypeAlias s = (some (), s') ∧ s.Declares (.type t name) r s' := by
  obtain ⟨a, s₁, h₁, hbare, hgo₁⟩ := hs.self.takeType ht (firstKind_word_ne_sign hs.grown _ _ _)
  obtain ⟨s₂, h₂, hgo₂⟩ := hgo₁.takeId hname "type name expected"
  obtain ⟨s₃, h₃, hnext, hgo₃⟩ := hgo₂.takeSign "; expected"
  obtain ⟨s₄, h₄, hadd⟩ := hgo₃.addType hnext (d := .type t name) (t := .type { a with name := name })
    (by rw [TypeAlias.bare, Alias.bare_rename hbare]; rfl) rfl
  refine ⟨s₄, ?_, hadd⟩
  rw [parseTypeAlias, mustMatch_complete hk, bind_of_some (orError_complete h₁ _), bind_of_some h₂,
    bind_of_some h₃]
  exact h₄

theorem parseSequenceTypeAlias_sound (hs : s.Reading w)
    (h : parseSequenceTypeAlias s = (some (), s')) : s.Parsed (.kw .sequence :: w) s' := by
  obtain ⟨-, h⟩ := mustMatch_sound h
  obtain ⟨_, s₁, h₁, h⟩ := bind_eq_some.mp h
  obtain ⟨r, rfl, -, hgo₁⟩ := hs.self.readSign h₁
  obtain ⟨a, s₂, h₂, h⟩ := bind_eq_some.mp h
  obtain ⟨t, r, ht, rfl, hbare, hgo₂⟩ := hgo₁.readType (orError_sound h₂)
  obtain ⟨_, s₃, h₃, h⟩ := bind_eq_some.mp h
  obtain ⟨r, rfl, -, hgo₃⟩ := hgo₂.readSign h₃
  obtain ⟨name, s₄, h₄, h⟩ := bind_eq_some.mp h
  obtain ⟨r, rfl, hname, hgo₄⟩ := hgo₃.readId h₄
  obtain ⟨_, s₅, h₅, h⟩ := bind_eq_some.mp h
  obtain ⟨r, rfl, hnext, hgo₅⟩ := hgo₄.readSign h₅
  obtain ⟨s₆, h₆, hadd⟩ := hgo₅.addType hnext (d := .sequence t name)
    (t := .sequence { a with name := name })
    (by rw [TypeAlias.bare, Alias.bare_rename hbare]; rfl) rfl
  cases h₆.symm.trans h
  exact ⟨.sequence t name, r, ⟨ht, hname⟩, by simp [Decl.tokens], hadd⟩

theorem parseSequenceTypeAlias_complete {t : TypeDecl} {name : Ident}
    (hk : s.curKind = .kw .sequence)
    (hs : s.Reading (.sign .less :: (t.tokens ++
      .sign .greater :: .word name :: .sign .semicolon :: r)))
    (ht : t.Ok s.symbols) (hname : s.symbols.IsId name) :
    ∃ s', parseSequenceTypeAlias s = (some (), s') ∧ s.Declares (.sequence t name) r s' := by
  obtain ⟨s₁, h₁, -, hgo₁⟩ := hs.self.takeSign "< expected"
  obtain ⟨a, s₂, h₂, hbare, hgo₂⟩ := hgo₁.takeType ht (by simp [firstKind, Lexeme.kind])
  obtain ⟨s₃, h₃, -, hgo₃⟩ := hgo₂.takeSign "> expected"
  obtain ⟨s₄, h₄, hgo₄⟩ := hgo₃.takeId hname "sequence type ID expected"
  obtain ⟨s₅, h₅, hnext, hgo₅⟩ := hgo₄.takeSign "; expected"
  obtain ⟨s₆, h₆, hadd⟩ := hgo₅.addType hnext (d := .sequence t name)
    (t := .sequence { a with name := name })
    (by rw [TypeAlias.bare, Alias.bare_rename hbare]; rfl) rfl
  refine ⟨s₆, ?_, hadd⟩
  rw [parseSequenceTypeAlias, mustMatch_complete hk, bind_of_some h₁,
    bind_of_some (orError_complete h₂ _), bind_of_some h₃, bind_of_some h₄, bind_of_some h₅]
  exact h₆

theorem parseRangeTypeAlias_sound (hs : s.Reading w) (h : parseRangeTypeAlias s = (some (), s')) :
    s.Parsed (.kw .range :: w) s' := by
  obtain ⟨-, h⟩ := mustMatch_sound h
  obtain ⟨start, s₁, h₁, h⟩ := bind_eq_some.mp h
  obtain ⟨r, rfl, hstart, hgo₁⟩ := hs.self.readId h₁
  obtain ⟨_, s₂, h₂, h⟩ := bind_eq_some.mp h
  obtain ⟨x, r, rfl, hx, -, hgo₂⟩ := hgo₁.readExpect (by simp) h₂
  rw [Kind.wanted_eq (by simp), kind_eq_dotdot hs.grown] at hx
  subst hx
  obtain ⟨stop, s₃, h₃, h⟩ := bind_eq_some.mp h
  obtain ⟨r, rfl, hstop, hgo₃⟩ := hgo₂.readId h₃
  obtain ⟨name, s₄, h₄, h⟩ := bind_eq_some.mp h
  obtain ⟨r, rfl, hname, hgo₄⟩ := hgo₃.readId h₄
  obtain ⟨_, s₅, h₅, h⟩ := bind_eq_some.mp h
  obtain ⟨r, rfl, hnext, hgo₅⟩ := hgo₄.readSign h₅
  obtain ⟨node, s₆, h₆, hbare, hnext₆, hgo₆⟩ := hgo₅.configure hnext { Alias.new with name := name }
  rw [bind_of_some h₆] at h
  obtain ⟨s₇, h₇, hadd⟩ := hgo₆.addType hnext₆ (d := .range start stop name)
    (t := .range node start stop) (by rw [TypeAlias.bare, hbare]; rfl)
    (congrArg (fun a : Alias => s.symbols.insert a.name .type) hbare.symm)
  cases h₇.symm.trans h
  exact ⟨.range start stop name, r, ⟨hstart, hstop, hname⟩, rfl, hadd⟩

theorem parseRangeTypeAlias_complete {start stop name : Ident} (hk : s.curKind = .kw .range)
    (hs : s.Reading
      (.word start :: .word .dotdot :: .word stop :: .word name :: .sign .semicolon :: r))
    (hstart : s.symbols.IsId start) (hstop : s.symbols.IsId stop) (hname : s.symbols.IsId name) :
    ∃ s', parseRangeTypeAlias s = (some (), s') ∧ s.Declares (.range start stop name) r s' := by
  obtain ⟨s₁, h₁, hgo₁⟩ := hs.self.takeId hstart "range start ID expected"
  obtain ⟨h₂, hgo₂⟩ := hgo₁.takeExpect (k := .dotdot)
    ((Kind.wanted_eq (by simp)).mpr ((kind_eq_dotdot hs.grown).mpr rfl)) ".. expected"
  obtain ⟨s₃, h₃, hgo₃⟩ := hgo₂.takeId hstop "range end ID expected"
  obtain ⟨s₄, h₄, hgo₄⟩ := hgo₃.takeId hname "range type ID expected"
  obtain ⟨s₅, h₅, hnext, hgo₅⟩ := hgo₄.takeSign "; expected"
  obtain ⟨node, s₆, h₆, hbare, hnext₆, hgo₆⟩ := hgo₅.configure hnext { Alias.new with name := name }
  obtain ⟨s₇, h₇, hadd⟩ := hgo₆.addType hnext₆ (d := .range start stop name)
    (t := .range node start stop) (by rw [TypeAlias.bare, hbare]; rfl)
    (congrArg (fun a : Alias => s.symbols.insert a.name .type) hbare.symm)
  refine ⟨s₇, ?_, hadd⟩
  rw [parseRangeTypeAlias, mustMatch_complete hk, bind_of_some h₁, bind_of_some h₂,
    bind_of_some h₃, bind_of_some h₄, bind_of_some h₅, bind_of_some h₆]
  exact h₇

theorem parseSetTypeAlias_sound (hs : s.Reading w) (h : parseSetTypeAlias s = (some (), s')) :
    s.Parsed (.kw .set_ :: w) s' := by
  obtain ⟨-, h⟩ := mustMatch_sound h
  obtain ⟨_, s₁, h₁, h⟩ := bind_eq_some.mp h
  obtain ⟨r, rfl, -, hgo₁⟩ := hs.self.readSign h₁
  obtain ⟨_, s₂, h₂, h⟩ := bind_eq_some.mp h
  obtain ⟨base, r, rfl, hbase, hcur, hgo₂⟩ := hgo₁.readKnownType h₂
  rw [read_bind, hcur] at h
  obtain ⟨_, s₃, h₃, h⟩ := bind_eq_some.mp h
  obtain ⟨r, rfl, -, hgo₃⟩ := hgo₂.readSign h₃
  obtain ⟨name, s₄, h₄, h⟩ := bind_eq_some.mp h
  obtain ⟨r, rfl, hname, hgo₄⟩ := hgo₃.readId h₄
  obtain ⟨_, s₅, h₅, h⟩ := bind_eq_some.mp h
  obtain ⟨r, rfl, hnext, hgo₅⟩ := hgo₄.readSign h₅
  obtain ⟨node, s₆, h₆, hbare, hnext₆, hgo₆⟩ :=
    hgo₅.configure hnext { Alias.new with name := name, type := base }
  rw [bind_of_some h₆] at h
  obtain ⟨s₇, h₇, hadd⟩ := hgo₆.addType hnext₆ (d := .set base name) (t := .set node)
    (by rw [TypeAlias.bare, hbare]; rfl)
    (congrArg (fun a : Alias => s.symbols.insert a.name .type) hbare.symm)
  cases h₇.symm.trans h
  exact ⟨.set base name, r, ⟨hbase, hname⟩, rfl, hadd⟩

theorem parseSetTypeAlias_complete {base name : Ident} (hk : s.curKind = .kw .set_)
    (hs : s.Reading
      (.sign .less :: .word base :: .sign .greater :: .word name :: .sign .semicolon :: r))
    (hbase : s.symbols.kindOf base = .type) (hname : s.symbols.IsId name) :
    ∃ s', parseSetTypeAlias s = (some (), s') ∧ s.Declares (.set base name) r s' := by
  obtain ⟨s₁, h₁, -, hgo₁⟩ := hs.self.takeSign "< expected"
  obtain ⟨s₂, h₂, hcur, hgo₂⟩ := hgo₁.takeKnownType hbase "set base type ID expected"
  obtain ⟨s₃, h₃, -, hgo₃⟩ := hgo₂.takeSign "> expected"
  obtain ⟨s₄, h₄, hgo₄⟩ := hgo₃.takeId hname "set type ID expected"
  obtain ⟨s₅, h₅, hnext, hgo₅⟩ := hgo₄.takeSign "; expected"
  obtain ⟨node, s₆, h₆, hbare, hnext₆, hgo₆⟩ :=
    hgo₅.configure hnext { Alias.new with name := name, type := base }
  obtain ⟨s₇, h₇, hadd⟩ := hgo₆.addType hnext₆ (d := .set base name) (t := .set node)
    (by rw [TypeAlias.bare, hbare]; rfl)
    (congrArg (fun a : Alias => s.symbols.insert a.name .type) hbare.symm)
  refine ⟨s₇, ?_, hadd⟩
  rw [parseSetTypeAlias, mustMatch_complete hk, bind_of_some h₁, bind_of_some h₂, read_bind, hcur,
    bind_of_some h₃, bind_of_some h₄, bind_of_some h₅, bind_of_some h₆]
  exact h₇

theorem parseArrayTypeAlias_sound (hs : s.Reading w) (h : parseArrayTypeAlias s = (some (), s')) :
    s.Parsed (.kw .array :: w) s' := by
  obtain ⟨-, h⟩ := mustMatch_sound h
  obtain ⟨_, s₁, h₁, h⟩ := bind_eq_some.mp h
  obtain ⟨base, r, rfl, hbase, hcur, hgo₁⟩ := hs.self.readKnownType h₁
  rw [read_bind, hcur] at h
  obtain ⟨_, s₂, h₂, h⟩ := bind_eq_some.mp h
  obtain ⟨r, rfl, -, hgo₂⟩ := hgo₁.readSign h₂
  obtain ⟨_, s₃, h₃, h⟩ := bind_eq_some.mp h
  obtain ⟨x, r, rfl, hx, rfl, hgo₃⟩ := hgo₂.readExpect (by simp) h₃
  rw [Kind.wanted_eq (by simp), kind_eq_cardinal hs.grown] at hx
  obtain ⟨count, rfl⟩ := hx
  rw [read_bind] at h
  obtain ⟨_, s₄, h₄, h⟩ := bind_eq_some.mp h
  obtain ⟨r, rfl, -, hgo₄⟩ := hgo₃.readSign h₄
  obtain ⟨name, s₅, h₅, h⟩ := bind_eq_some.mp h
  obtain ⟨r, rfl, hname, hgo₅⟩ := hgo₄.readId h₅
  obtain ⟨_, s₆, h₆, h⟩ := bind_eq_some.mp h
  obtain ⟨r, rfl, hnext, hgo₆⟩ := hgo₅.readSign h₆
  obtain ⟨node, s₇, h₇, hbare, hnext₇, hgo₇⟩ :=
    hgo₆.configure hnext { Alias.new with name := name, type := base }
  rw [bind_of_some h₇] at h
  obtain ⟨s₈, h₈, hadd⟩ := hgo₇.addType hnext₇ (d := .array base count name)
    (t := .array node count.toInt) (by rw [TypeAlias.bare, hbare]; rfl)
    (congrArg (fun a : Alias => s.symbols.insert a.name .type) hbare.symm)
  cases h₈.symm.trans h
  exact ⟨.array base count name, r, ⟨hbase, hname⟩, rfl, hadd⟩

theorem parseArrayTypeAlias_complete {base name : Ident} {count : BitVec 32}
    (hk : s.curKind = .kw .array)
    (hs : s.Reading (.word base :: .sign .lsquare :: .cardinal count :: .sign .rsquare ::
      .word name :: .sign .semicolon :: r))
    (hbase : s.symbols.kindOf base = .type) (hname : s.symbols.IsId name) :
    ∃ s', parseArrayTypeAlias s = (some (), s') ∧ s.Declares (.array base count name) r s' := by
  obtain ⟨s₁, h₁, hcur, hgo₁⟩ := hs.self.takeKnownType hbase "array base type ID expected"
  obtain ⟨s₂, h₂, -, hgo₂⟩ := hgo₁.takeSign "[ expected"
  obtain ⟨h₃, hgo₃⟩ := hgo₂.takeExpect (k := .cardinal) rfl "number of repetitions expected"
  obtain ⟨s₄, h₄, -, hgo₄⟩ := hgo₃.takeSign "] expected"
  obtain ⟨s₅, h₅, hgo₅⟩ := hgo₄.takeId hname "array ID expected"
  obtain ⟨s₆, h₆, hnext, hgo₆⟩ := hgo₅.takeSign "; expected"
  obtain ⟨node, s₇, h₇, hbare, hnext₇, hgo₇⟩ :=
    hgo₆.configure hnext { Alias.new with name := name, type := base }
  obtain ⟨s₈, h₈, hadd⟩ := hgo₇.addType hnext₇ (d := .array base count name)
    (t := .array node count.toInt) (by rw [TypeAlias.bare, hbare]; rfl)
    (congrArg (fun a : Alias => s.symbols.insert a.name .type) hbare.symm)
  refine ⟨s₈, ?_, hadd⟩
  rw [parseArrayTypeAlias, mustMatch_complete hk, bind_of_some h₁, read_bind, hcur,
    bind_of_some h₂, bind_of_some h₃, read_bind, bind_of_some h₄, bind_of_some h₅, bind_of_some h₆,
    bind_of_some h₇]
  exact h₈

theorem parseEnumTypeAlias_sound (hs : s.Reading w) (h : parseEnumTypeAlias s = (some (), s')) :
    s.Parsed (.kw .enum :: w) s' := by
  obtain ⟨-, h⟩ := mustMatch_sound h
  obtain ⟨name, s₁, h₁, h⟩ := bind_eq_some.mp h
  obtain ⟨r, rfl, hname, hgo₁⟩ := hs.self.readId h₁
  obtain ⟨_, s₂, h₂, h⟩ := bind_eq_some.mp h
  obtain ⟨r, rfl, -, hgo₂⟩ := hgo₁.readSign h₂
  obtain ⟨ids, s₃, h₃, h⟩ := bind_eq_some.mp h
  obtain ⟨trailing, g, r, hids, rfl, hend, hgo₃⟩ := parseIdList_sound hgo₂.reading h₃
  rw [hgo₂.keeps.symbols] at hids
  obtain ⟨_, s₄, h₄, h⟩ := bind_eq_some.mp h
  obtain ⟨r', hg, hnext, hgo₄⟩ := (hgo₂.trans hgo₃).readSign h₄
  -- the loop may have come to a bracket of the other kind, which `expect` refuses
  cases hg
  obtain ⟨-, rfl, hne⟩ := hend.resolve_left (by simp)
  obtain ⟨s₅, h₅, hadd⟩ := hgo₄.addType hnext (d := .enum name ids)
    (t := .enum { Alias.new with name := name } ids) rfl rfl
  cases h₅.symm.trans h
  exact ⟨.enum name ids, r, ⟨hname, hne, hids⟩, by simp [Decl.tokens], hadd⟩

theorem parseEnumTypeAlias_complete {name : Ident} {ids : List Ident} (hk : s.curKind = .kw .enum)
    (hs : s.Reading (.word name :: .sign .lbrace ::
      (commaTokens (fun x => [.word x]) false ids ++ .sign .rbrace :: r)))
    (hname : s.symbols.IsId name) (hne : ids ≠ []) (hids : ∀ x ∈ ids, s.symbols.IsId x) :
    ∃ s', parseEnumTypeAlias s = (some (), s') ∧ s.Declares (.enum name ids) r s' := by
  obtain ⟨s₁, h₁, hgo₁⟩ := hs.self.takeId hname "enum ID expected"
  obtain ⟨s₂, h₂, -, hgo₂⟩ := hgo₁.takeSign "\x7b expected"
  obtain ⟨s₃, h₃, hgo₃⟩ := parseIdList_complete hgo₂.reading
    (by rw [hgo₂.keeps.symbols]; exact hids) (by simp) (.inr ⟨rfl, hne⟩)
  obtain ⟨s₄, h₄, hnext, hgo₄⟩ := (hgo₂.trans hgo₃).takeSign "\x7d expected"
  obtain ⟨s₅, h₅, hadd⟩ := hgo₄.addType hnext (d := .enum name ids)
    (t := .enum { Alias.new with name := name } ids) rfl rfl
  refine ⟨s₅, ?_, hadd⟩
  rw [parseEnumTypeAlias, mustMatch_complete hk, bind_of_some h₁, bind_of_some h₂, bind_of_some h₃,
    bind_of_some h₄]
  exact h₅

end Types

/-! ## §4. Types with fields, and exceptions. -/

section Fields

variable {s s₁ s₂ s' : State} {w r : List Lexeme}

theorem InRow.flatMap {xs : List VarDecl} {symbols : SymbolTable}
    (h : InRow (fun (v : VarDecl) w r => v.Ok symbols ∧ w = v.fieldTokens ++ r) xs w r) :
    (∀ v ∈ xs, v.Ok symbols) ∧ w = xs.flatMap VarDecl.fieldTokens ++ r := by
  induction xs generalizing w with
  | nil => exact ⟨by simp, h⟩
  | cons x xs ih =>
      obtain ⟨u, ⟨hx, rfl⟩, hxs⟩ := h
      obtain ⟨hall, rfl⟩ := ih hxs
      exact ⟨List.forall_mem_cons.mpr ⟨hx, hall⟩, by simp⟩

theorem inRow_flatMap {xs : List VarDecl} {symbols : SymbolTable} (hall : ∀ v ∈ xs, v.Ok symbols) :
    InRow (fun (v : VarDecl) w r => v.Ok symbols ∧ w = v.fieldTokens ++ r) xs
      (xs.flatMap VarDecl.fieldTokens ++ r) r := by
  induction xs with
  | nil => rfl
  | cons x xs ih =>
      obtain ⟨hx, hxs⟩ := List.forall_mem_cons.mp hall
      exact ⟨_, ⟨hx, by simp⟩, ih hxs⟩

/-- The fields up to the bracket, or an error. -/
theorem State.Goes.readFields (hgo : s.Goes w s₁) {fields : List Alias} {ok : Bool}
    (h : parseFieldList s₁ = (some (fields, ok), s₂)) :
    (∃ (vs : List VarDecl) (r : List Lexeme), (∀ v ∈ vs, v.Ok s.symbols) ∧
        w = vs.flatMap VarDecl.fieldTokens ++ .sign .rbrace :: r ∧
        fields.map Alias.bare = vs.map VarDecl.node ∧ s.Goes (.sign .rbrace :: r) s₂) ∨
      (s₂.HasTree ∧ s.errorCount < s₂.errorCount) := by
  cases ok with
  | true =>
      obtain ⟨vs, r, hrow, hrel, hgo'⟩ := listUntil_sound (parseField_spec _) hgo.reading h
      obtain ⟨hall, rfl⟩ := hrow.flatMap
      rw [hgo.keeps.symbols] at hall
      exact .inl ⟨vs, r, hall, rfl, map_eq_of_forall₂ hrel, hgo.trans hgo'⟩
  | false =>
      obtain ⟨htree, -, hlt⟩ := listUntil_reporting itemReporting_parseField hgo.reading.tree h
      refine .inr ⟨htree, ?_⟩
      rw [errorCount, ← hgo.keeps.errors]
      exact hlt rfl

theorem State.Goes.takeFields {vs : List VarDecl}
    (hgo : s.Goes (vs.flatMap VarDecl.fieldTokens ++ .sign .rbrace :: r) s₁)
    (hvs : ∀ v ∈ vs, v.Ok s.symbols) :
    ∃ fields s₂, parseFieldList s₁ = (some (fields, true), s₂) ∧
      fields.map Alias.bare = vs.map VarDecl.node ∧ s.Goes (.sign .rbrace :: r) s₂ := by
  rw [← hgo.keeps.symbols] at hvs
  obtain ⟨fields, s₂, h, hrel, hgo'⟩ := listUntil_complete (parseField_spec _) hgo.reading
    (inRow_flatMap hvs)
  exact ⟨fields, s₂, h, map_eq_of_forall₂ hrel, hgo.trans hgo'⟩

/-- The choices up to the bracket, or an error. -/
theorem State.Goes.readChoices (hgo : s.Goes w s₁) {choices : List Alias} {ok : Bool}
    (h : parseChoiceList s₁ = (some (choices, ok), s₂)) :
    (∃ (cs : List Choice) (trailing : Bool) (r : List Lexeme), (∀ c ∈ cs, c.Ok s.symbols) ∧
        w = commaTokens Choice.tokens trailing cs ++ .sign .rbrace :: r ∧
        choices.map Alias.bare = cs.map Choice.node ∧ s.Goes (.sign .rbrace :: r) s₂) ∨
      (s₂.HasTree ∧ s.errorCount < s₂.errorCount) := by
  cases ok with
  | true =>
      have hspec := parseChoiceDecl_spec hgo.reading.grown
      obtain ⟨cs, r, hrow, hrel, hgo'⟩ := listUntil_sound hspec hgo.reading h
      obtain ⟨trailing, rfl, hall⟩ := hrow.commaTokens hspec.first
      rw [hgo.keeps.symbols] at hall
      exact .inl ⟨cs, trailing, r, hall, rfl, map_eq_of_forall₂ hrel, hgo.trans hgo'⟩
  | false =>
      obtain ⟨htree, -, hlt⟩ := listUntil_reporting itemReporting_parseChoiceDecl hgo.reading.tree h
      refine .inr ⟨htree, ?_⟩
      rw [errorCount, ← hgo.keeps.errors]
      exact hlt rfl

theorem State.Goes.takeChoices {cs : List Choice} {trailing : Bool}
    (hgo : s.Goes (commaTokens Choice.tokens trailing cs ++ .sign .rbrace :: r) s₁)
    (hcs : ∀ c ∈ cs, c.Ok s.symbols) :
    ∃ choices s₂, parseChoiceList s₁ = (some (choices, true), s₂) ∧
      choices.map Alias.bare = cs.map Choice.node ∧ s.Goes (.sign .rbrace :: r) s₂ := by
  rw [← hgo.keeps.symbols] at hcs
  obtain ⟨choices, s₂, h, hrel, hgo'⟩ := listUntil_complete
    (parseChoiceDecl_spec hgo.reading.grown) hgo.reading (inRow_commaTokens trailing hcs)
  exact ⟨choices, s₂, h, map_eq_of_forall₂ hrel, hgo.trans hgo'⟩

/-! After an error the errors stay. -/

abbrev ErrorGrowing {α : Type} (p : Parse α) : Prop := Grows HasTree errorCount p

theorem errorGrowing_addToTree (f : InterfaceNode → InterfaceNode) : ErrorGrowing (addToTree f) := by
  intro s a s' hI h
  cases h
  refine ⟨?_, le_rfl⟩
  rw [HasTree, Option.isSome_map]
  exact hI

theorem errorGrowing_insertChecked (key : Ident) (kind : Kind) :
    ErrorGrowing (insertChecked key kind) := by
  intro s a s' hI h
  rw [insertChecked, read_bind, modify_bind, SymbolTable.insertChecked_eq, if_pos rfl] at h
  cases h
  exact ⟨hI, le_rfl⟩

theorem errorGrowing_addType (t : TypeAlias) : ErrorGrowing (addType t) :=
  (errorGrowing_addToTree _).bind fun _ => errorGrowing_insertChecked _ _

theorem parseRecordTypeAlias_sound (hs : s.Reading w)
    (h : parseRecordTypeAlias s = (some (), s')) :
    s.Parsed (.kw .record :: w) s' ∨ s.errorCount < s'.errorCount := by
  obtain ⟨-, h⟩ := mustMatch_sound h
  obtain ⟨name, s₁, h₁, h⟩ := bind_eq_some.mp h
  obtain ⟨r, rfl, hname, hgo₁⟩ := hs.self.readId h₁
  obtain ⟨_, s₂, h₂, h⟩ := bind_eq_some.mp h
  obtain ⟨r, rfl, -, hgo₂⟩ := hgo₁.readSign h₂
  obtain ⟨⟨fields, ok⟩, s₃, h₃, h⟩ := bind_eq_some.mp h
  rcases hgo₂.readFields h₃ with ⟨vs, r, hvs, rfl, hfields, hgo₃⟩ | ⟨htree, hlt⟩
  · obtain ⟨_, s₄, h₄, h⟩ := bind_eq_some.mp h
    obtain ⟨r', hr, hnext, hgo₄⟩ := hgo₃.readSign h₄
    cases hr
    obtain ⟨s₅, h₅, hadd⟩ := hgo₄.addType hnext (d := .record name vs)
      (t := .record { Alias.new with name := name } fields)
      (by rw [TypeAlias.bare, hfields]; rfl) rfl
    cases h₅.symm.trans h
    exact .inl ⟨.record name vs, r, ⟨hname, hvs⟩, by simp [Decl.tokens], hadd⟩
  · right
    have hle := ((errorReporting_expect _ _).1.bind fun _ => errorGrowing_addType _) _ _ _ htree h
    exact lt_of_lt_of_le hlt hle.2

theorem parseRecordTypeAlias_complete {name : Ident} {vs : List VarDecl}
    (hk : s.curKind = .kw .record)
    (hs : s.Reading (.word name :: .sign .lbrace ::
      (vs.flatMap VarDecl.fieldTokens ++ .sign .rbrace :: r)))
    (hname : s.symbols.IsId name) (hvs : ∀ v ∈ vs, v.Ok s.symbols) :
    ∃ s', parseRecordTypeAlias s = (some (), s') ∧ s.Declares (.record name vs) r s' := by
  obtain ⟨s₁, h₁, hgo₁⟩ := hs.self.takeId hname "record ID expected"
  obtain ⟨s₂, h₂, -, hgo₂⟩ := hgo₁.takeSign "\x7b expected"
  obtain ⟨fields, s₃, h₃, hfields, hgo₃⟩ := hgo₂.takeFields hvs
  obtain ⟨s₄, h₄, hnext, hgo₄⟩ := hgo₃.takeSign "\x7d expected"
  obtain ⟨s₅, h₅, hadd⟩ := hgo₄.addType hnext (d := .record name vs)
    (t := .record { Alias.new with name := name } fields)
    (by rw [TypeAlias.bare, hfields]; rfl) rfl
  refine ⟨s₅, ?_, hadd⟩
  rw [parseRecordTypeAlias, mustMatch_complete hk, bind_of_some h₁, bind_of_some h₂,
    bind_of_some h₃]
  exact (bind_of_some h₄).trans h₅

theorem parseChoiceTypeAlias_sound (hs : s.Reading w)
    (h : parseChoiceTypeAlias s = (some (), s')) :
    s.Parsed (.kw .choice :: w) s' ∨ s.errorCount < s'.errorCount := by
  obtain ⟨-, h⟩ := mustMatch_sound h
  obtain ⟨name, s₁, h₁, h⟩ := bind_eq_some.mp h
  obtain ⟨r, rfl, hname, hgo₁⟩ := hs.self.readId h₁
  obtain ⟨_, s₂, h₂, h⟩ := bind_eq_some.mp h
  obtain ⟨r, rfl, hgo₂⟩ := hgo₁.readKw h₂
  obtain ⟨selector, s₃, h₃, h⟩ := bind_eq_some.mp h
  obtain ⟨r, rfl, hselector, hgo₃⟩ := hgo₂.readId h₃
  obtain ⟨_, s₄, h₄, h⟩ := bind_eq_some.mp h
  obtain ⟨r, rfl, -, hgo₄⟩ := hgo₃.readSign h₄
  obtain ⟨⟨choices, ok⟩, s₅, h₅, h⟩ := bind_eq_some.mp h
  rcases hgo₄.readChoices h₅ with ⟨cs, trailing, r, hcs, rfl, hchoices, hgo₅⟩ | ⟨htree, hlt⟩
  · obtain ⟨_, s₆, h₆, h⟩ := bind_eq_some.mp h
    obtain ⟨r', hr, hnext, hgo₆⟩ := hgo₅.readSign h₆
    cases hr
    obtain ⟨s₇, h₇, hadd⟩ := hgo₆.addType hnext (d := .choice name selector cs trailing)
      (t := .choice { Alias.new with name := name } selector choices)
      (by rw [TypeAlias.bare, hchoices]; rfl) rfl
    cases h₇.symm.trans h
    exact .inl ⟨.choice name selector cs trailing, r, ⟨hname, hselector, hcs⟩,
      by simp [Decl.tokens], hadd⟩
  · right
    have hle := ((errorReporting_expect _ _).1.bind fun _ => errorGrowing_addType _) _ _ _ htree h
    exact lt_of_lt_of_le hlt hle.2

theorem parseChoiceTypeAlias_complete {name selector : Ident} {cs : List Choice} {trailing : Bool}
    (hk : s.curKind = .kw .choice)
    (hs : s.Reading (.word name :: .kw .on_ :: .word selector :: .sign .lbrace ::
      (commaTokens Choice.tokens trailing cs ++ .sign .rbrace :: r)))
    (hname : s.symbols.IsId name) (hselector : s.symbols.IsId selector)
    (hcs : ∀ c ∈ cs, c.Ok s.symbols) :
    ∃ s', parseChoiceTypeAlias s = (some (), s') ∧
      s.Declares (.choice name selector cs trailing) r s' := by
  obtain ⟨s₁, h₁, hgo₁⟩ := hs.self.takeId hname "choice ID expected"
  obtain ⟨s₂, h₂, hgo₂⟩ := hgo₁.takeKw "'on' keyword expected in choice declaration"
  obtain ⟨s₃, h₃, hgo₃⟩ := hgo₂.takeId hselector "choice selector ID expected"
  obtain ⟨s₄, h₄, -, hgo₄⟩ := hgo₃.takeSign "\x7b expected"
  obtain ⟨choices, s₅, h₅, hchoices, hgo₅⟩ := hgo₄.takeChoices hcs
  obtain ⟨s₆, h₆, hnext, hgo₆⟩ := hgo₅.takeSign "\x7d expected"
  obtain ⟨s₇, h₇, hadd⟩ := hgo₆.addType hnext (d := .choice name selector cs trailing)
    (t := .choice { Alias.new with name := name } selector choices)
    (by rw [TypeAlias.bare, hchoices]; rfl) rfl
  refine ⟨s₇, ?_, hadd⟩
  rw [parseChoiceTypeAlias, mustMatch_complete hk, bind_of_some h₁, bind_of_some h₂,
    bind_of_some h₃, bind_of_some h₄, bind_of_some h₅]
  exact (bind_of_some h₆).trans h₇

/-- The documentation goes to a node. -/
theorem assignAutodoc_eq (s : State) :
    assignAutodoc s = (some s.autodocBuffer, { s with autodocBuffer := "" }) := rfl

theorem State.Goes.docs (hgo : s.Goes w s₁) (docs : String) :
    ({ s with autodocBuffer := docs } : State).Goes w { s₁ with autodocBuffer := docs } :=
  ⟨⟨hgo.keeps.symbols, hgo.keeps.tree, hgo.keeps.isLocal, hgo.keeps.isFinal, hgo.keeps.isIdempotent,
    rfl, hgo.keeps.errors⟩, hgo.reading.reads, hgo.reading.grown, hgo.reading.tree⟩

theorem State.Declares.docs {d : Decl} {docs : String}
    (h : ({ s with autodocBuffer := docs } : State).Declares d r s') : s.Declares d r s' :=
  ⟨h.symbols, h.tree, h.isIdempotent, h.errors, h.reading⟩

theorem State.Goes.addException (docs : String) (name : Ident) {vs : List VarDecl}
    {fields : List Alias} (hgo : s.Goes r s₁) (hnext : s₁.nextKind = none)
    (hfields : fields.map Alias.bare = vs.map VarDecl.node) :
    ∃ s', (addToTree (fun tree => { tree with
        exceptions := tree.exceptions ++ [⟨name, docs, fields⟩] }) >>= fun _ =>
          insertChecked name .exceptionType) s₁ = (some (), s') ∧
      s.Declares (.exception name vs) r s' := by
  refine hgo.add hnext (fun n => ?_) (.inr rfl) rfl
  simp [InterfaceNode.bare, InterfaceNode.declare, Exception.bare, hfields, Decl.typeAlias,
    Decl.exceptionNode, Decl.methodNode]

theorem parseException_sound (hs : s.Reading w) (h : parseException s = (some (), s')) :
    s.Parsed (.kw .exception_ :: w) s' ∨ s.errorCount < s'.errorCount := by
  obtain ⟨-, h⟩ := mustMatch_sound h
  obtain ⟨name, s₁, h₁, h⟩ := bind_eq_some.mp h
  obtain ⟨r, rfl, hname, hgo₁⟩ := hs.self.readId h₁
  rw [bind_of_some (assignAutodoc_eq s₁)] at h
  have hgo₁ := hgo₁.docs ""
  obtain ⟨_, s₂, h₂, h⟩ := bind_eq_some.mp h
  obtain ⟨r, rfl, -, hgo₂⟩ := hgo₁.readSign h₂
  obtain ⟨⟨fields, ok⟩, s₃, h₃, h⟩ := bind_eq_some.mp h
  rcases hgo₂.readFields h₃ with ⟨vs, r, hvs, rfl, hfields, hgo₃⟩ | ⟨htree, hlt⟩
  · obtain ⟨_, s₄, h₄, h⟩ := bind_eq_some.mp h
    obtain ⟨r', hr, hnext, hgo₄⟩ := hgo₃.readSign h₄
    cases hr
    obtain ⟨s₅, h₅, hadd⟩ := hgo₄.addException _ _ hnext hfields
    cases h₅.symm.trans h
    exact .inl ⟨.exception name vs, r, ⟨hname, hvs⟩, by simp [Decl.tokens], hadd.docs⟩
  · right
    have hle := ((errorReporting_expect _ _).1.bind fun _ => (errorGrowing_addToTree _).bind fun _ =>
      errorGrowing_insertChecked _ _) _ _ _ htree h
    exact lt_of_lt_of_le hlt hle.2

theorem parseException_complete {name : Ident} {vs : List VarDecl}
    (hk : s.curKind = .kw .exception_)
    (hs : s.Reading (.word name :: .sign .lbrace ::
      (vs.flatMap VarDecl.fieldTokens ++ .sign .rbrace :: r)))
    (hname : s.symbols.IsId name) (hvs : ∀ v ∈ vs, v.Ok s.symbols) :
    ∃ s', parseException s = (some (), s') ∧ s.Declares (.exception name vs) r s' := by
  obtain ⟨s₁, h₁, hgo₁⟩ := hs.self.takeId hname "exception ID expected"
  have hgo₁ := hgo₁.docs ""
  obtain ⟨s₂, h₂, -, hgo₂⟩ := hgo₁.takeSign "\x7b expected"
  obtain ⟨fields, s₃, h₃, hfields, hgo₃⟩ := hgo₂.takeFields hvs
  obtain ⟨s₄, h₄, hnext, hgo₄⟩ := hgo₃.takeSign "\x7d expected"
  obtain ⟨s₅, h₅, hadd⟩ := hgo₄.addException s₁.autodocBuffer name hnext hfields
  refine ⟨s₅, ?_, hadd.docs⟩
  rw [parseException, mustMatch_complete hk, bind_of_some h₁, bind_of_some (assignAutodoc_eq s₁),
    bind_of_some h₂, bind_of_some h₃]
  exact (bind_of_some h₄).trans h₅

end Fields

/-! ## §5. Methods. -/

section Methods

variable {s s₁ s₂ s' : State} {w r : List Lexeme}

theorem State.Goes.readArguments (hgo : s.Goes w s₁) {defaultDir : Direction} {ps : List Parameter}
    (h : parseArgumentList defaultDir s₁ = (some ps, s₂)) :
    ∃ (a : Arguments) (r : List Lexeme), a.Ok s.symbols ∧
      w = commaTokens Argument.tokens a.trailing a.items ++ .sign .rparen :: r ∧
      ps.map Parameter.bare = a.parameters defaultDir ∧ s.Goes (.sign .rparen :: r) s₂ := by
  obtain ⟨a, r, ha, rfl, hps, hgo'⟩ := parseArgumentList_sound hgo.reading h
  rw [hgo.keeps.symbols] at ha
  exact ⟨a, r, ha, rfl, hps, hgo.trans hgo'⟩

theorem State.Goes.takeArguments {a : Arguments} (defaultDir : Direction)
    (hgo : s.Goes (commaTokens Argument.tokens a.trailing a.items ++ .sign .rparen :: r) s₁)
    (ha : a.Ok s.symbols) :
    ∃ ps s₂, parseArgumentList defaultDir s₁ = (some ps, s₂) ∧
      ps.map Parameter.bare = a.parameters defaultDir ∧ s.Goes (.sign .rparen :: r) s₂ := by
  rw [← hgo.keeps.symbols] at ha
  obtain ⟨ps, s₂, h, hps, hgo'⟩ := parseArgumentList_complete a defaultDir hgo.reading ha
  exact ⟨ps, s₂, h, hps, hgo.trans hgo'⟩

/-- A keyword that may be there. -/
theorem State.Goes.readMaybeKw (hgo : s.Goes w s₁) {k : Keyword} {b : Bool}
    (h : maybe (.kw k) s₁ = (some b, s₂)) :
    (b = true ∧ s₂.curKind = .kw k ∧ ∃ r, w = .kw k :: r ∧ s.Goes r s₂) ∨
      (b = false ∧ s.Goes w s₂) := by
  rcases maybe_sound hgo.reading (by simp) h with ⟨rfl, x, r, rfl, hx, rfl, hgo'⟩ | ⟨rfl, hgo'⟩
  · rw [Kind.wanted_eq (by simp)] at hx
    have hkw := (kind_eq_kw hgo.reading.grown).mp hx
    subst hkw
    exact .inl ⟨rfl, hx, r, rfl, hgo.trans hgo'⟩
  · exact .inr ⟨rfl, hgo.trans hgo'⟩

theorem State.Goes.takeMaybeKw {k : Keyword} (hgo : s.Goes (.kw k :: r) s₁) :
    ∃ s₂, maybe (.kw k) s₁ = (some true, s₂) ∧ s₂.curKind = .kw k ∧ s.Goes r s₂ := by
  have hkind := (kind_eq_kw (k := k) hgo.reading.grown).mpr rfl
  obtain ⟨h, hgo'⟩ := maybe_taken hgo.reading ((Kind.wanted_eq (k := .kw k) (by simp)).mpr hkind)
  exact ⟨_, h, hkind, hgo.trans hgo'⟩

theorem State.Goes.passMaybeKw {k : Keyword} (hgo : s.Goes w s₁)
    (hno : firstKind s.symbols w ≠ .kw k) :
    ∃ s₂, maybe (.kw k) s₁ = (some false, s₂) ∧ s.Goes w s₂ := by
  rw [← hgo.keeps.symbols] at hno
  obtain ⟨s₂, h, hgo'⟩ := maybe_passed hgo.reading (by simp) hno
  exact ⟨s₂, h, hgo.trans hgo'⟩

/-- `never returns`, or the results. -/
theorem parseReturnsClause_sound (hgo : s.Goes w s₁) {ps : List Parameter} {never : Bool}
    (h : parseReturnsClause s₁ = (some (ps, never), s₂)) :
    ∃ (x : Returns) (r : List Lexeme), x.Ok s.symbols ∧ w = x.tokens ++ r ∧
      ps.map Parameter.bare = x.parameters ∧ never = x.isNever ∧ s.Goes r s₂ := by
  obtain ⟨b₁, s₃, h₁, h⟩ := bind_eq_some.mp h
  rcases hgo.readMaybeKw h₁ with ⟨rfl, hcur, r, rfl, hgo₁⟩ | ⟨rfl, hgo₁⟩
  · rw [if_pos rfl, parseMethodReturns, bind_of_some (matches_apply _ _), hcur,
      if_neg (by simp)] at h
    obtain ⟨-, h⟩ := mustMatch_sound h
    obtain ⟨_, s₄, h₂, h⟩ := bind_eq_some.mp h
    obtain ⟨r, rfl, -, hgo₂⟩ := hgo₁.readSign h₂
    obtain ⟨returns, s₅, h₃, h⟩ := bind_eq_some.mp h
    obtain ⟨a, r, ha, rfl, hps, hgo₃⟩ := hgo₂.readArguments h₃
    obtain ⟨_, s₆, h₄, h⟩ := bind_eq_some.mp h
    obtain ⟨r', hr, -, hgo₄⟩ := hgo₃.readSign h₄
    cases hr
    cases h
    exact ⟨.values a, r, ha, by simp [Returns.tokens, Arguments.tokens], hps, rfl, hgo₄⟩
  · rw [if_neg (by simp)] at h
    obtain ⟨b₂, s₄, h₂, h⟩ := bind_eq_some.mp h
    rcases hgo₁.readMaybeKw h₂ with ⟨rfl, hcur, r, rfl, hgo₂⟩ | ⟨rfl, hgo₂⟩
    · rw [if_pos rfl, parseMethodReturns, bind_of_some (matches_apply _ _), hcur,
        if_pos (by simp)] at h
      obtain ⟨_, s₅, h₃, h⟩ := bind_eq_some.mp h
      obtain ⟨r, rfl, hgo₃⟩ := hgo₂.readKw h₃
      cases h
      exact ⟨.never, r, trivial, rfl, rfl, rfl, hgo₃⟩
    · cases h
      exact ⟨.nothing, w, trivial, rfl, rfl, rfl, hgo₂⟩

theorem parseReturnsClause_complete {x : Returns} (hgo : s.Goes (x.tokens ++ r) s₁)
    (hx : x.Ok s.symbols) (hreturns : firstKind s.symbols r ≠ .kw .returns)
    (hnever : firstKind s.symbols r ≠ .kw .never) :
    ∃ ps s₂, parseReturnsClause s₁ = (some (ps, x.isNever), s₂) ∧
      ps.map Parameter.bare = x.parameters ∧ s.Goes r s₂ := by
  cases x with
  -- neither `returns` nor `never` is there, so there are no parameters
  | nothing =>
      obtain ⟨s₂, h₁, hgo₁⟩ := hgo.passMaybeKw (k := .returns) hreturns
      obtain ⟨s₃, h₂, hgo₂⟩ := hgo₁.passMaybeKw (k := .never) hnever
      refine ⟨[], s₃, ?_, rfl, hgo₂⟩
      rw [parseReturnsClause, bind_of_some h₁, if_neg (by simp), bind_of_some h₂]
      rfl
  -- `never returns`
  | never =>
      have hgrown := hgo.keeps.symbols ▸ hgo.reading.grown
      obtain ⟨s₂, h₁, hgo₁⟩ := hgo.passMaybeKw (k := .returns) (by
        show Lexeme.kind s.symbols (.kw .never) ≠ _
        rw [(kind_eq_kw (k := .never) hgrown).mpr rfl]
        simp)
      obtain ⟨s₃, h₂, hcur, hgo₂⟩ := hgo₁.takeMaybeKw (k := .never)
      obtain ⟨s₄, h₃, hgo₃⟩ := hgo₂.takeKw "'returns' expected after 'never'"
      refine ⟨[], s₄, ?_, rfl, hgo₃⟩
      rw [parseReturnsClause, bind_of_some h₁, if_neg (by simp), bind_of_some h₂, if_pos rfl,
        parseMethodReturns, bind_of_some (matches_apply _ _), hcur, if_pos (by simp),
        bind_of_some h₃]
      rfl
  -- `returns` and its parameters
  | values a =>
      simp only [Returns.tokens, Arguments.tokens, List.cons_append, List.append_assoc,
        List.nil_append] at hgo
      obtain ⟨s₂, h₁, hcur, hgo₁⟩ := hgo.takeMaybeKw (k := .returns)
      obtain ⟨s₃, h₂, -, hgo₂⟩ := hgo₁.takeSign "( expected"
      obtain ⟨ps, s₄, h₃, hps, hgo₃⟩ := hgo₂.takeArguments .out hx
      obtain ⟨s₅, h₄, -, hgo₄⟩ := hgo₃.takeSign ") expected"
      refine ⟨ps, s₅, ?_, hps, hgo₄⟩
      rw [parseReturnsClause, bind_of_some h₁, if_pos rfl, parseMethodReturns,
        bind_of_some (matches_apply _ _), hcur, if_neg (by simp), mustMatch_complete hcur,
        bind_of_some h₂, bind_of_some h₃, bind_of_some h₄]
      rfl

theorem parseRaisesClause_sound (hgo : s.Goes w s₁) {ids : List Ident}
    (h : parseRaisesClause s₁ = (some ids, s₂)) :
    ∃ (x : Option Raises) (r : List Lexeme), (∀ y, x = some y → y.Ok s.symbols) ∧
      w = x.elim [] Raises.tokens ++ r ∧ ids = x.elim [] Raises.ids ∧ s.Goes r s₂ := by
  obtain ⟨b, s₃, h₁, h⟩ := bind_eq_some.mp h
  rcases hgo.readMaybeKw h₁ with ⟨rfl, hcur, r, rfl, hgo₁⟩ | ⟨rfl, hgo₁⟩
  · rw [if_pos rfl] at h
    obtain ⟨-, h⟩ := mustMatch_sound h
    obtain ⟨_, s₄, h₂, h⟩ := bind_eq_some.mp h
    obtain ⟨r, rfl, -, hgo₂⟩ := hgo₁.readSign h₂
    obtain ⟨ids', s₅, h₃, h⟩ := bind_eq_some.mp h
    obtain ⟨trailing, g, r, hids, rfl, -, hgo₃⟩ := parseIdList_sound hgo₂.reading h₃
    rw [hgo₂.keeps.symbols] at hids
    obtain ⟨_, s₆, h₄, h⟩ := bind_eq_some.mp h
    obtain ⟨r', hr, -, hgo₄⟩ := (hgo₂.trans hgo₃).readSign h₄
    cases hr
    cases h
    refine ⟨some ⟨ids, trailing⟩, r, ?_, by simp [Raises.tokens], rfl, hgo₄⟩
    intro y hy
    cases hy
    exact hids
  · cases h
    exact ⟨none, w, nofun, rfl, rfl, hgo₁⟩

theorem parseRaisesClause_complete {x : Option Raises}
    (hgo : s.Goes (x.elim [] Raises.tokens ++ r) s₁) (hx : ∀ y, x = some y → y.Ok s.symbols)
    (hraises : firstKind s.symbols r ≠ .kw .raises) :
    ∃ s₂, parseRaisesClause s₁ = (some (x.elim [] Raises.ids), s₂) ∧ s.Goes r s₂ := by
  cases x with
  | none =>
      obtain ⟨s₂, h₁, hgo₁⟩ := hgo.passMaybeKw (k := .raises) hraises
      refine ⟨s₂, ?_, hgo₁⟩
      rw [parseRaisesClause, bind_of_some h₁]
      rfl
  | some y =>
      simp only [Option.elim_some, Raises.tokens, List.cons_append, List.append_assoc,
        List.nil_append] at hgo
      obtain ⟨s₂, h₁, hcur, hgo₁⟩ := hgo.takeMaybeKw (k := .raises)
      obtain ⟨s₃, h₂, -, hgo₂⟩ := hgo₁.takeSign "( expected"
      obtain ⟨s₄, h₃, hgo₃⟩ := parseIdList_complete hgo₂.reading
        (by rw [hgo₂.keeps.symbols]; exact hx y rfl) (by simp) (.inl rfl)
      obtain ⟨s₅, h₄, -, hgo₄⟩ := (hgo₂.trans hgo₃).takeSign ") expected"
      refine ⟨s₅, ?_, hgo₄⟩
      rw [parseRaisesClause, bind_of_some h₁, if_pos rfl, parseMethodRaises, mustMatch_complete hcur,
        bind_of_some h₂, bind_of_some h₃, bind_of_some h₄]
      rfl

/-- The method was added to the tree; `idempotent` may have been there before. -/
structure State.DeclaresMethod (s : State) (m : MethodDecl) (r : List Lexeme) (s' : State) :
    Prop where
  symbols : s'.symbols = s.symbols
  tree : s'.parseTree.map InterfaceNode.bare = s.parseTree.map fun n =>
    { n.bare with methods := n.bare.methods ++
        [{ m.method n.name with idempotent := m.idempotent ≠ 0 || s.isIdempotent }] }
  isIdempotent : s'.isIdempotent = false
  errors : s'.errors = s.errors
  reading : s'.Reading r

theorem State.DeclaresMethod.declares {m : MethodDecl} (h : s.DeclaresMethod m r s')
    (hs : s.isIdempotent = false) : s.Declares (.method m) r s' := by
  refine ⟨h.symbols, ?_, fun _ => h.isIdempotent, h.errors, h.reading⟩
  rw [h.tree, hs]
  congr 1
  funext n
  simp [InterfaceNode.declare, Decl.typeAlias, Decl.exceptionNode, Decl.methodNode,
    InterfaceNode.bare, MethodDecl.method]

/-- Once more `idempotent` before a method. -/
theorem State.DeclaresMethod.again {m : MethodDecl}
    (h : ({ s with isIdempotent := true } : State).DeclaresMethod m r s') :
    s.DeclaresMethod { m with idempotent := m.idempotent + 1 } r s' := by
  refine ⟨h.symbols, ?_, h.isIdempotent, h.errors, h.reading⟩
  rw [h.tree]
  congr 1
  funext n
  simp [MethodDecl.method]

theorem State.DeclaresMethod.readAt {m : MethodDecl} (h : (s.readAt w).DeclaresMethod m r s') :
    s.DeclaresMethod m r s' := ⟨h.symbols, h.tree, h.isIdempotent, h.errors, h.reading⟩

/-- The documentation and the flag are taken for the method. -/
theorem State.Goes.taken (hgo : s.Goes w s₁) :
    ({ s with autodocBuffer := "", isIdempotent := false } : State).Goes w
      { s₁ with autodocBuffer := "", isIdempotent := false } :=
  ⟨⟨hgo.keeps.symbols, hgo.keeps.tree, hgo.keeps.isLocal, hgo.keeps.isFinal, rfl, rfl,
    hgo.keeps.errors⟩, hgo.reading.reads, hgo.reading.grown, hgo.reading.tree⟩

/-- A method is added. -/
theorem State.Goes.addMethod (docs : String) {m : MethodDecl} {params returns : List Parameter}
    (hgo : ({ s with autodocBuffer := "", isIdempotent := false } : State).Goes r s₁)
    (hm : m.idempotent = 0) (hparams : params.map Parameter.bare = m.args.parameters .in_)
    (hreturns : returns.map Parameter.bare = m.returns.parameters) :
    s.DeclaresMethod m r { s₁ with parseTree := s₁.parseTree.map fun tree =>
      { tree with methods := tree.methods ++ [⟨m.name, docs, params, returns,
        m.raises.elim [] Raises.ids, s.isIdempotent, m.returns.isNever, tree.name, 0⟩] } } := by
  refine ⟨hgo.keeps.symbols, ?_, hgo.keeps.isIdempotent, hgo.keeps.errors,
    ⟨hgo.reading.reads, hgo.reading.grown, ?_⟩⟩
  · have htree := hgo.keeps.tree
    cases h : s.parseTree with
    | none =>
        simp only [h, Option.map_none, Option.map_eq_none_iff] at htree
        simp only [htree, Option.map_none]
    | some n =>
        simp only [h, Option.map_some] at htree
        obtain ⟨n₁, h₁, hbare⟩ := Option.map_eq_some_iff.mp htree
        have hname : n₁.bare.name = n.bare.name := congrArg InterfaceNode.name hbare
        replace hname : n₁.name = n.name := hname
        simp only [h₁, Option.map_some, Option.some_inj, ← hbare]
        simp [InterfaceNode.bare, Method.bare, MethodDecl.method, hparams, hreturns, hm, hname]
  · rw [Option.isSome_map]
    exact hgo.reading.tree

/-- The name of the method was read. -/
theorem parseNamedMethod_sound (hs : s.Reading w)
    (hkind : s.curKind = .identifier → s.symbols.kindOf s.currentToken = .identifier)
    (h : parseNamedMethod s = (some (), s')) :
    ∃ (m : MethodDecl) (r : List Lexeme), m.Ok s.symbols ∧
      .word s.currentToken :: w = m.tokens ++ r ∧ s.DeclaresMethod m r s' := by
  obtain ⟨hcur, h⟩ := mustMatch_sound h
  rw [read_bind] at h
  obtain ⟨_, s₁, h₁, h⟩ := bind_eq_some.mp h
  obtain ⟨r, rfl, -, hgo₁⟩ := hs.self.readSign h₁
  rw [read_bind, bind_of_some (assignAutodoc_eq s₁), modify_bind, hgo₁.keeps.isIdempotent] at h
  have hgo₁ := hgo₁.taken
  obtain ⟨params, s₂, h₂, h⟩ := bind_eq_some.mp h
  obtain ⟨a, r, ha, rfl, hparams, hgo₂⟩ := hgo₁.readArguments h₂
  obtain ⟨_, s₃, h₃, h⟩ := bind_eq_some.mp h
  obtain ⟨r', hr, -, hgo₃⟩ := hgo₂.readSign h₃
  cases hr
  obtain ⟨⟨returns, never⟩, s₄, h₄, h⟩ := bind_eq_some.mp h
  obtain ⟨y, r, hy, rfl, hreturns, rfl, hgo₄⟩ := parseReturnsClause_sound hgo₃ h₄
  obtain ⟨ids, s₅, h₅, h⟩ := bind_eq_some.mp h
  obtain ⟨z, r, hz, rfl, rfl, hgo₅⟩ := parseRaisesClause_sound hgo₄ h₅
  obtain ⟨_, s₆, h₆, h⟩ := bind_eq_some.mp h
  obtain ⟨x, r, rfl, hx, rfl⟩ := expectSilently_eq_some hgo₅.reading.reads (by simp) h₆
  rw [Kind.wanted_eq (by simp), kind_eq_sign hgo₅.reading.grown] at hx
  subst hx
  have hgo₆ := hgo₅.trans hgo₅.reading.goes_readAt
  cases h
  exact ⟨⟨0, s.currentToken, a, y, z⟩, r, ⟨hkind hcur, ha, hy, hz⟩,
    by simp [MethodDecl.tokens, Arguments.tokens],
    hgo₆.addMethod _ (m := ⟨0, s.currentToken, a, y, z⟩) rfl hparams hreturns⟩

/-- What comes behind the arguments of a method is none of the keywords. -/
theorem firstKind_raises_ne {symbols : SymbolTable} (hg : symbols.Grown) {x : Option Raises}
    {k : Keyword} (hk : k ≠ .raises) (r : List Lexeme) :
    firstKind symbols (x.elim [] Raises.tokens ++ .sign .semicolon :: r) ≠ .kw k := by
  cases x with
  | none => simp [firstKind, Lexeme.kind]
  | some y =>
      show Lexeme.kind symbols (.kw .raises) ≠ _
      rw [(kind_eq_kw (k := .raises) hg).mpr rfl]
      simpa using hk.symm

theorem parseNamedMethod_complete {m : MethodDecl} (hm : m.idempotent = 0)
    (hcur : s.curKind = .identifier) (hname : s.currentToken = m.name)
    (hs : s.Reading (m.args.tokens ++ (m.returns.tokens ++
      (m.raises.elim [] Raises.tokens ++ .sign .semicolon :: r)))) (hok : m.Ok s.symbols) :
    ∃ s', parseNamedMethod s = (some (), s') ∧ s.DeclaresMethod m r s' := by
  obtain ⟨-, hargs, hreturns, hraises⟩ := hok
  simp only [Arguments.tokens, List.cons_append, List.append_assoc, List.nil_append] at hs
  obtain ⟨s₁, h₁, -, hgo₁⟩ := hs.self.takeSign "( expected"
  have hidem : s₁.isIdempotent = s.isIdempotent := hgo₁.keeps.isIdempotent
  have hgo₂ := hgo₁.taken
  obtain ⟨params, s₃, h₃, hparams, hgo₃⟩ := hgo₂.takeArguments .in_ hargs
  obtain ⟨s₄, h₄, -, hgo₄⟩ := hgo₃.takeSign ") expected"
  obtain ⟨returns, s₅, h₅, hrets, hgo₅⟩ := parseReturnsClause_complete hgo₄ hreturns
    (firstKind_raises_ne hs.grown (by simp) r) (firstKind_raises_ne hs.grown (by simp) r)
  obtain ⟨s₆, h₆, hgo₆⟩ := parseRaisesClause_complete hgo₅ hraises (by simp [firstKind, Lexeme.kind])
  have h₇ := expectSilently_ok hgo₆.reading.reads
    ((Kind.wanted_eq (k := .sign .semicolon) (by simp)).mpr rfl)
  have hgo₇ := hgo₆.trans hgo₆.reading.goes_readAt
  refine ⟨_, ?_, hgo₇.addMethod s₁.autodocBuffer hm hparams hrets⟩
  rw [parseNamedMethod, mustMatch_complete hcur, read_bind, bind_of_some h₁, read_bind,
    bind_of_some (assignAutodoc_eq s₁), modify_bind, bind_of_some h₃, bind_of_some h₄,
    bind_of_some h₅]
  refine (bind_of_some h₆).trans ((bind_of_some h₇).trans ?_)
  rw [hidem, hname]
  rfl

/-- A state with the flag set goes on as before. -/
theorem State.Reading.flag (hs : s.Reading w) (b : Bool) :
    ({ s with isIdempotent := b } : State).Reading w := ⟨hs.reads, hs.grown, hs.tree⟩

theorem parseMethodLoop_sound (fuel : Nat) : ∀ {s : State} {w : List Lexeme}, s.Reading w →
    parseMethodLoop fuel (s.readAt w) = (some (), s') →
    ∃ (m : MethodDecl) (r : List Lexeme), m.Ok s.symbols ∧ w = m.tokens ++ r ∧
      s.DeclaresMethod m r s' := by
  induction fuel with
  | zero => exact fun _ h => nomatch h
  | succ fuel ih =>
      intro s w hs h
      rw [parseMethodLoop, bind_of_some (matches_apply _ _)] at h
      split at h
      · -- one more `idempotent` in front of what the recursive call reads
        next hidem =>
          have hidem : firstKind s.symbols w = .kw .idempotent := of_decide_eq_true hidem
          cases w with
          | nil => cases hidem
          | cons x w =>
              obtain rfl := (kind_eq_kw hs.grown).mp hidem
              have hs₁ := hs.goes_readAt.reading.flag true
              rw [modify_bind, bind_of_some (lex_eq hs₁.reads)] at h
              obtain ⟨m, r, hm, rfl, hadd⟩ := ih hs₁ h
              refine ⟨{ m with idempotent := m.idempotent + 1 }, r, hm, ?_, hadd.again.readAt⟩
              simp [MethodDecl.tokens, List.replicate_succ]
      · -- anything else has to be the name of the method
        have hcur : firstKind s.symbols w = .identifier := (mustMatch_sound h).1
        cases w with
        | nil => cases hcur
        | cons x w =>
            obtain ⟨name, rfl, hname⟩ := kind_eq_identifier.mp hcur
            obtain ⟨m, r, hm, htokens, hadd⟩ := parseNamedMethod_sound hs.goes_readAt.reading
              (fun _ => hname) h
            exact ⟨m, r, hm, htokens, hadd.readAt⟩

theorem parseMethodLoop_complete (n : Nat) :
    ∀ {m : MethodDecl} {s : State} {fuel : Nat}, m.idempotent = n → s.Reading (m.tokens ++ r) →
      m.Ok s.symbols → n < fuel →
      ∃ s', parseMethodLoop fuel (s.readAt (m.tokens ++ r)) = (some (), s') ∧
        s.DeclaresMethod m r s' := by
  induction n with
  | zero =>
      intro m s fuel hm hs hok hfuel
      obtain ⟨fuel, rfl⟩ := Nat.exists_eq_succ_of_ne_zero (Nat.ne_zero_of_lt hfuel)
      have htokens : m.tokens ++ r = .word m.name :: (m.args.tokens ++ (m.returns.tokens ++
          (m.raises.elim [] Raises.tokens ++ .sign .semicolon :: r))) := by
        simp [MethodDecl.tokens, hm]
      rw [htokens] at hs ⊢
      have hcur : (s.readAt (.word m.name :: (m.args.tokens ++ (m.returns.tokens ++
          (m.raises.elim [] Raises.tokens ++ .sign .semicolon :: r))))).curKind = .identifier := hok.1
      obtain ⟨s', h, hadd⟩ := parseNamedMethod_complete hm hcur rfl hs.goes_readAt.reading hok
      refine ⟨s', ?_, hadd.readAt⟩
      rw [parseMethodLoop, bind_of_some (matches_apply _ _), hcur, if_neg (by simp)]
      exact h
  | succ n ih =>
      intro m s fuel hm hs hok hfuel
      obtain ⟨fuel, rfl⟩ := Nat.exists_eq_succ_of_ne_zero (Nat.ne_zero_of_lt hfuel)
      have htokens : m.tokens ++ r = .kw .idempotent ::
          (({ m with idempotent := n } : MethodDecl).tokens ++ r) := by
        simp [MethodDecl.tokens, hm, List.replicate_succ]
      rw [htokens] at hs ⊢
      have hs₁ := hs.goes_readAt.reading.flag true
      obtain ⟨s', h, hadd⟩ := ih (m := { m with idempotent := n }) rfl hs₁ hok
        (Nat.lt_of_succ_lt_succ hfuel)
      have hagain := hadd.again.readAt
      rw [← hm] at hagain
      refine ⟨s', ?_, hagain⟩
      have hcur : (s.readAt (.kw .idempotent ::
          (({ m with idempotent := n } : MethodDecl).tokens ++ r))).curKind = .kw .idempotent :=
        (kind_eq_kw (k := .idempotent) hs.grown).mpr rfl
      rw [parseMethodLoop, bind_of_some (matches_apply _ _), hcur, if_pos (by simp), modify_bind,
        bind_of_some (lex_eq hs₁.reads)]
      exact h

theorem parseMethod_sound (hs : s.Reading w) (hidem : s.isIdempotent = false)
    (h : parseMethod (s.readAt w) = (some (), s')) : s.Parsed w s' := by
  rw [parseMethod, read_bind] at h
  obtain ⟨m, r, hm, rfl, hadd⟩ := parseMethodLoop_sound _ hs h
  exact ⟨.method m, r, hm, rfl, hadd.declares hidem⟩

theorem parseMethod_complete {m : MethodDecl} (hs : s.Reading (m.tokens ++ r))
    (hidem : s.isIdempotent = false) (hm : m.Ok s.symbols) :
    ∃ s', parseMethod (s.readAt (m.tokens ++ r)) = (some (), s') ∧ s.Declares (.method m) r s' := by
  have hfuel : m.idempotent < (s.readAt (m.tokens ++ r)).rest.length + 2 := by
    simp only [readAt, List.length_tail, List.length_append, MethodDecl.tokens,
      List.length_replicate, List.length_cons]
    omega
  obtain ⟨s', h, hadd⟩ := parseMethodLoop_complete _ rfl hs hm hfuel
  refine ⟨s', ?_, hadd.declares hidem⟩
  rw [parseMethod, read_bind]
  exact h

end Methods

end Metta.Meddler
