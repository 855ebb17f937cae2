/-
  Metta.Meddler.Forward — the parser uses its tokens up.

  No function of the parser has more lexemes left behind it than in front of
  it, whether it fails or not.  A run that returns true has read one at least,
  and no token is put back then, so a parser can be run only so often.

    • `Forward` — a computation that does not get lexemes back,
    • `forward_parseTopLevelEntities` — every function of the parser is one,
    • `parserRun` — `run` of a parser that may have been run before,
    • `run_forward` — what a run that returns true leaves.
-/
import Metta.Meddler.Parser

namespace Metta.Meddler

open Metta.Machine Attempt

/-! ## §1. Tokens. -/

/-- A computation of the parser that has no more lexemes left than before. -/
abbrev Forward {α : Type} (p : Parse α) : Prop := Consumes (fun s : State => s.rest.length) p

theorem State.lex_rest_le (s : State) : s.lex.rest.length ≤ s.rest.length := by
  unfold State.lex
  cases s.nextKind with
  | some k => exact le_refl _
  | none =>
      cases hrest : s.rest with
      | nil => exact le_refl _
      | cons x rest => exact Nat.le_succ _

theorem forward_lex : Forward lex := Consumes.modify State.lex_rest_le

theorem forward_lexback : Forward lexback := Consumes.modify fun _ => le_refl _

theorem forward_matches (k : Kind) : Forward (matches_ k) := Consumes.read _

theorem forward_wantLex (k : Kind) : Forward (wantLex k) :=
  forward_lex.bind fun _ => Consumes.read _

theorem forward_maybe (k : Kind) : Forward (maybe k) :=
  (forward_wantLex k).bind fun _ => Consumes.ite (Consumes.pure _)
    (forward_lexback.bind fun _ => Consumes.pure _)

theorem forward_parseError {α : Type} (msg : String) : Forward (parseError msg : Parse α) :=
  Consumes.of_eq fun _ => rfl

theorem forward_expect (k : Kind) (msg : String) : Forward (expect k msg) :=
  (forward_wantLex k).bind fun _ => Consumes.ite (Consumes.pure _) (forward_parseError _)

theorem forward_expectSilently (k : Kind) : Forward (expectSilently k) :=
  (forward_wantLex k).bind fun _ => Consumes.ite (Consumes.pure _) Consumes.fail

theorem forward_mustMatch (k : Kind) : Forward (mustMatch k) :=
  (forward_matches k).bind fun _ => Consumes.ite (Consumes.pure _) Consumes.fail

theorem forward_mustMatchOr (k : Kind) (msg : String) : Forward (mustMatchOr k msg) :=
  (forward_matches k).bind fun _ => Consumes.ite (Consumes.pure _) (forward_parseError _)

/-- What changes the state but not what is left to read. -/
theorem forward_modify {g : State → State} (h : ∀ s, (g s).rest = s.rest) :
    Forward (.modify g) := Consumes.modify fun s => (congrArg List.length (h s)).le

theorem forward_appendAutodoc : Forward appendAutodoc := forward_modify fun _ => rfl

theorem forward_assignAutodoc : Forward assignAutodoc := Consumes.of_eq fun _ => rfl

/-! ## §2. Types and variables. -/

theorem forward_parseId (msg : String) : Forward (parseId msg) :=
  (forward_expect _ _).bind fun _ => Consumes.read _

theorem forward_configureType (a : Alias) : Forward (configureType a) := by
  refine Consumes.of_eq fun s => ?_
  unfold configureType
  cases s.parseTree with
  | none => rfl
  | some tree => rfl

theorem forward_parseTypeId : Forward parseTypeId :=
  (forward_wantLex _).bind fun _ => Consumes.ite (Consumes.read _)
    ((forward_matches _).bind fun _ => Consumes.ite (Consumes.read _) (forward_parseError _))

theorem forward_parseTypeDecl (a : Alias) : Forward (parseTypeDecl a) :=
  forward_parseTypeId.bind fun _ => (forward_maybe _).bind fun _ => forward_configureType _

theorem forward_parseVarDecl (a : Alias) : Forward (parseVarDecl a) :=
  (forward_maybe _).bind fun _ => (Consumes.read _).bind fun _ =>
    (forward_parseTypeDecl _).bind fun _ => (forward_parseId _).bind fun _ => Consumes.pure _

/-! ## §3. Lists. -/

theorem forward_listLoop {α : Type} {item : Parse (α × Bool)} (hitem : Forward item) (stop : Kind)
    (fuel : Nat) : Forward (listLoop stop item fuel) := by
  induction fuel with
  | zero => exact Consumes.fail
  | succ fuel ih =>
      refine forward_lex.bind fun _ => (forward_matches _).bind fun _ =>
        Consumes.ite (forward_lexback.bind fun _ => Consumes.pure _) ?_
      refine forward_lexback.bind fun _ => hitem.attempt.bind fun r => ?_
      cases r with
      | none => exact Consumes.pure _
      | some a =>
          obtain ⟨a, more⟩ := a
          cases more with
          | false => exact Consumes.pure _
          | true => exact ih.bind fun _ => Consumes.pure _

theorem forward_listUntil {α : Type} {item : Parse (α × Bool)} (hitem : Forward item)
    (stop : Kind) : Forward (listUntil stop item) :=
  (Consumes.read _).bind fun _ => forward_listLoop hitem stop _

theorem forward_separator (stop : Kind) (msg : String) : Forward (separator stop msg) :=
  (forward_wantLex _).bind fun _ => Consumes.ite (Consumes.pure _)
    ((forward_matches _).bind fun _ => Consumes.ite forward_lexback (forward_parseError _))

theorem forward_parseFieldList : Forward parseFieldList :=
  forward_listUntil ((forward_parseVarDecl _).bind fun _ => (forward_expect _ _).bind fun _ =>
    Consumes.pure _) _

theorem forward_parseDirection (defaultDir : Direction) : Forward (parseDirection defaultDir) :=
  (forward_maybe _).bind fun _ => Consumes.ite (Consumes.pure _)
    ((forward_maybe _).bind fun _ => Consumes.ite (Consumes.pure _)
      ((forward_maybe _).bind fun _ => Consumes.ite (Consumes.pure _) (Consumes.pure _)))

theorem forward_parseArgumentList (defaultDir : Direction) :
    Forward (parseArgumentList defaultDir) := by
  have hargument : Forward (parseArgument defaultDir) :=
    (forward_parseDirection _).bind fun _ => (forward_parseVarDecl _).bind fun _ =>
      (forward_separator _ _).bind fun _ => Consumes.pure _
  exact (forward_listUntil hargument _).bind fun _ => Consumes.ite (Consumes.pure _) Consumes.fail

theorem forward_parseChoiceDecl : Forward parseChoiceDecl := by
  refine (forward_parseId _).bind fun _ => (forward_expect _ _).bind fun _ =>
    (forward_parseTypeDecl _).bind fun _ => (forward_separator _ _).attempt.bind fun r => ?_
  cases r with
  | none => exact Consumes.pure _
  | some a => exact Consumes.pure _

theorem forward_parseChoiceList : Forward parseChoiceList :=
  forward_listUntil forward_parseChoiceDecl _

theorem forward_idLoop (delim : Kind) (fuel : Nat) : Forward (idLoop delim fuel) := by
  induction fuel with
  | zero => exact Consumes.fail
  | succ fuel ih =>
      refine forward_lex.bind fun _ => (forward_matches _).bind fun _ =>
        Consumes.ite (forward_lexback.bind fun _ => Consumes.pure _) ?_
      refine forward_lexback.bind fun _ => (forward_parseId _).bind fun _ =>
        (forward_wantLex _).bind fun _ => Consumes.ite ?_ ?_
      · exact ih.bind fun _ => Consumes.pure _
      · exact (forward_matches _).bind fun _ => Consumes.ite
          (forward_lexback.bind fun _ => Consumes.pure _) (forward_parseError _)

theorem forward_parseIdList (delim : Kind) : Forward (parseIdList delim) :=
  (Consumes.read _).bind fun _ => forward_idLoop delim _

/-! ## §4. Declarations. -/

theorem forward_insertChecked (key : Ident) (kind : Kind) : Forward (insertChecked key kind) :=
  (Consumes.read _).bind fun _ => (forward_modify fun _ => by rfl).bind fun _ =>
    Consumes.ite (Consumes.pure _) (forward_parseError _)

theorem forward_addToTree (f : InterfaceNode → InterfaceNode) : Forward (addToTree f) :=
  forward_modify fun _ => rfl

theorem forward_addType (t : TypeAlias) : Forward (addType t) :=
  (forward_addToTree _).bind fun _ => forward_insertChecked _ _

theorem forward_orError {α : Type} {p : Parse α} (hp : Forward p) (msg : String) :
    Forward (p.orError msg) := by
  refine hp.attempt.bind fun r => ?_
  cases r with
  | none => exact forward_parseError _
  | some a => exact Consumes.pure _

theorem forward_parseMethodReturns : Forward parseMethodReturns :=
  (forward_matches _).bind fun _ => Consumes.ite
    ((forward_expect _ _).bind fun _ => Consumes.pure _)
    ((forward_mustMatch _).bind fun _ => (forward_expect _ _).bind fun _ =>
      (forward_parseArgumentList _).bind fun _ => (forward_expect _ _).bind fun _ =>
      Consumes.pure _)

theorem forward_parseReturnsClause : Forward parseReturnsClause :=
  (forward_maybe _).bind fun _ => Consumes.ite forward_parseMethodReturns
    ((forward_maybe _).bind fun _ => Consumes.ite forward_parseMethodReturns (Consumes.pure _))

theorem forward_parseRaisesClause : Forward parseRaisesClause :=
  (forward_maybe _).bind fun _ => Consumes.ite
    ((forward_mustMatch _).bind fun _ => (forward_expect _ _).bind fun _ =>
      (forward_parseIdList _).bind fun _ => (forward_expect _ _).bind fun _ => Consumes.pure _)
    (Consumes.pure _)

theorem forward_parseNamedMethod : Forward parseNamedMethod :=
  (forward_mustMatch _).bind fun _ => (Consumes.read _).bind fun _ =>
    (forward_expect _ _).bind fun _ => (Consumes.read _).bind fun _ =>
    forward_assignAutodoc.bind fun _ => (forward_modify fun _ => by rfl).bind fun _ =>
    (forward_parseArgumentList _).bind fun _ => (forward_expect _ _).bind fun _ =>
    forward_parseReturnsClause.bind fun _ => forward_parseRaisesClause.bind fun _ =>
    (forward_expectSilently _).bind fun _ => forward_addToTree _

theorem forward_parseMethodLoop (fuel : Nat) : Forward (parseMethodLoop fuel) := by
  induction fuel with
  | zero => exact Consumes.fail
  | succ fuel ih =>
      exact (forward_matches _).bind fun _ => Consumes.ite
        ((forward_modify fun _ => by rfl).bind fun _ => forward_lex.bind fun _ => ih)
        forward_parseNamedMethod

theorem forward_parseMethod : Forward parseMethod :=
  (Consumes.read _).bind fun _ => forward_parseMethodLoop _

theorem forward_parseDeclaration (k : Kind) : Forward (parseDeclaration k) := by
  have htype : ∀ msg, Forward ((parseTypeDecl .new).orError msg) :=
    forward_orError (forward_parseTypeDecl _)
  unfold parseDeclaration
  split
  · exact (forward_mustMatch _).bind fun _ => (forward_parseId _).bind fun _ =>
      forward_assignAutodoc.bind fun _ => (forward_expect _ _).bind fun _ =>
      forward_parseFieldList.bind fun _ => (forward_expect _ _).bind fun _ =>
      (forward_addToTree _).bind fun _ => forward_insertChecked _ _
  · exact (forward_mustMatch _).bind fun _ => (forward_parseId _).bind fun _ =>
      (forward_expect _ _).bind fun _ => (forward_parseIdList _).bind fun _ =>
      (forward_expect _ _).bind fun _ => forward_addType _
  · exact (forward_mustMatch _).bind fun _ => (forward_expect _ _).bind fun _ =>
      (Consumes.read _).bind fun _ => (forward_expect _ _).bind fun _ =>
      (forward_expect _ _).bind fun _ => (Consumes.read _).bind fun _ =>
      (forward_expect _ _).bind fun _ => (forward_parseId _).bind fun _ =>
      (forward_expect _ _).bind fun _ => (forward_configureType _).bind fun _ => forward_addType _
  · exact (forward_mustMatch _).bind fun _ => (forward_parseId _).bind fun _ =>
      (forward_expect _ _).bind fun _ => (forward_parseId _).bind fun _ =>
      (forward_parseId _).bind fun _ => (forward_expect _ _).bind fun _ =>
      (forward_configureType _).bind fun _ => forward_addType _
  · exact (forward_mustMatch _).bind fun _ => (forward_expect _ _).bind fun _ =>
      (htype _).bind fun _ => (forward_expect _ _).bind fun _ => (forward_parseId _).bind fun _ =>
      (forward_expect _ _).bind fun _ => forward_addType _
  · exact (forward_mustMatch _).bind fun _ => (forward_expect _ _).bind fun _ =>
      (forward_expect _ _).bind fun _ => (Consumes.read _).bind fun _ =>
      (forward_expect _ _).bind fun _ => (forward_parseId _).bind fun _ =>
      (forward_expect _ _).bind fun _ => (forward_configureType _).bind fun _ => forward_addType _
  · exact (forward_mustMatch _).bind fun _ => (forward_parseId _).bind fun _ =>
      (forward_expect _ _).bind fun _ => forward_parseFieldList.bind fun _ =>
      (forward_expect _ _).bind fun _ => forward_addType _
  · exact (forward_mustMatch _).bind fun _ => (forward_parseId _).bind fun _ =>
      (forward_expect _ _).bind fun _ => (forward_parseId _).bind fun _ =>
      (forward_expect _ _).bind fun _ => forward_parseChoiceList.bind fun _ =>
      (forward_expect _ _).bind fun _ => forward_addType _
  · exact (forward_mustMatch _).bind fun _ => (htype _).bind fun _ =>
      (forward_parseId _).bind fun _ => (forward_expect _ _).bind fun _ => forward_addType _
  · exact forward_parseMethod
  · exact forward_parseMethod
  · exact forward_appendAutodoc
  · exact forward_parseError _

/-! ## §5. Interfaces. -/

theorem forward_bodyLoop (fuel : Nat) : Forward (bodyLoop fuel) := by
  induction fuel with
  | zero => exact Consumes.fail
  | succ fuel ih =>
      exact forward_lex.bind fun _ => (Consumes.read _).bind fun _ =>
        Consumes.ite Consumes.fail (Consumes.ite forward_lexback
          ((forward_parseDeclaration _).bind fun _ => ih))

theorem forward_parseExtends : Forward parseExtends :=
  (forward_maybe _).bind fun _ => Consumes.ite
    (forward_lex.bind fun _ => (forward_mustMatchOr _ _).bind fun _ =>
      (Consumes.read _).bind fun _ => forward_addToTree _)
    (Consumes.pure _)

theorem forward_parseInterfaceBody : Forward parseInterfaceBody :=
  (Consumes.read _).bind fun _ => forward_bodyLoop _

theorem forward_parseNamedInterface : Forward parseNamedInterface :=
  (forward_mustMatchOr _ _).bind fun _ => (forward_expectSilently _).bind fun _ =>
    (Consumes.read _).bind fun _ => forward_assignAutodoc.bind fun _ =>
    (forward_modify fun _ => by rfl).bind fun _ => (forward_insertChecked _ _).bind fun _ =>
    forward_parseExtends.bind fun _ => (forward_expect _ _).bind fun _ =>
    forward_parseInterfaceBody.bind fun _ => forward_expect _ _

theorem forward_interfaceLoop (fuel : Nat) : Forward (interfaceLoop fuel) := by
  induction fuel with
  | zero => exact Consumes.fail
  | succ fuel ih =>
      exact (forward_matches _).bind fun _ => Consumes.ite
        ((forward_modify fun _ => by rfl).bind fun _ => forward_lex.bind fun _ => ih)
        ((forward_matches _).bind fun _ => Consumes.ite
          ((forward_modify fun _ => by rfl).bind fun _ => forward_lex.bind fun _ => ih)
          forward_parseNamedInterface)

theorem forward_parseInterface : Forward parseInterface :=
  (Consumes.read _).bind fun _ => forward_interfaceLoop _

theorem forward_topLevelLoop (fuel : Nat) : Forward (topLevelLoop fuel) := by
  induction fuel with
  | zero => exact Consumes.fail
  | succ fuel ih =>
      exact (Consumes.read _).bind fun _ => Consumes.ite forward_parseInterface
        (Consumes.ite (forward_appendAutodoc.bind fun _ => forward_lex.bind fun _ => ih)
          Consumes.fail)

/-- **The parser goes forward.** -/
theorem forward_parseTopLevelEntities : Forward parseTopLevelEntities :=
  (Consumes.read _).bind fun _ => (forward_modify fun _ => by rfl).bind fun _ =>
    forward_topLevelLoop _

/-! ## §6. Runs. -/

/-- `run` of a parser: whether it returns true, and the parser afterwards. -/
def parserRun (s : State) : Bool × State :=
  let (r, s') := (do lex; parseTopLevelEntities : Parse Unit) s
  (r.isSome, s')

/-- A run of a parser that is new. -/
theorem run_init (w : List Lexeme) :
    run w = ⟨(parserRun (.init w)).1, (parserRun (.init w)).2.parseTree,
      (parserRun (.init w)).2.errors⟩ := rfl

theorem State.lex_nextKind (s : State) : s.lex.nextKind = none := by
  unfold State.lex
  cases hnext : s.nextKind with
  | some k => rfl
  | none =>
      cases s.rest with
      | nil => rfl
      | cons x rest => rfl

/-- Behind a token that was there, none is put back. -/
theorem expect_nextKind (k : Kind) (msg : String) :
    Ensures (fun s : State => s.nextKind = none) (expect k msg) := by
  intro s a s' h
  unfold expect wantLex at h
  obtain ⟨found, s₁, h₁, h₂⟩ := bind_eq_some.mp h
  have hs₁ : s₁ = s.lex := by
    cases h₁
    rfl
  cases found with
  | true =>
      cases h₂
      rw [hs₁]
      exact s.lex_nextKind
  | false => exact nomatch h₂

theorem interfaceLoop_nextKind (fuel : Nat) :
    Ensures (fun s : State => s.nextKind = none) (interfaceLoop fuel) := by
  induction fuel with
  | zero => exact Ensures.fail
  | succ fuel ih =>
      refine Ensures.bind fun _ => Ensures.ite ?_ (Ensures.bind fun _ => Ensures.ite ?_ ?_)
      · exact Ensures.bind fun _ => Ensures.bind fun _ => ih
      · exact Ensures.bind fun _ => Ensures.bind fun _ => ih
      · -- the last thing that is read is the bracket
        exact Ensures.bind fun _ => Ensures.bind fun _ => Ensures.bind fun _ =>
          Ensures.bind fun _ => Ensures.bind fun _ => Ensures.bind fun _ => Ensures.bind fun _ =>
          Ensures.bind fun _ => Ensures.bind fun _ => expect_nextKind _ _

theorem topLevelLoop_nextKind (fuel : Nat) :
    Ensures (fun s : State => s.nextKind = none) (topLevelLoop fuel) := by
  induction fuel with
  | zero => exact Ensures.fail
  | succ fuel ih =>
      refine Ensures.bind fun _ => Ensures.ite ?_ (Ensures.ite ?_ Ensures.fail)
      · exact Ensures.bind fun _ => interfaceLoop_nextKind _
      · exact Ensures.bind fun _ => Ensures.bind fun _ => ih

/-- A run, by its loop. -/
theorem run_eq_some {s s' : State} (h : parserRun s = (true, s')) :
    ∃ fuel, topLevelLoop fuel { s.lex with isLocal := false, isFinal := false } = (some (), s') := by
  unfold parserRun at h
  refine ⟨s.lex.rest.length + 2, ?_⟩
  have hrun : (do lex; parseTopLevelEntities : Parse Unit) s =
      topLevelLoop (s.lex.rest.length + 2) { s.lex with isLocal := false, isFinal := false } := rfl
  rw [hrun] at h
  generalize topLevelLoop _ _ = o at h ⊢
  obtain ⟨r, s₁⟩ := o
  cases r with
  | none => cases h
  | some u =>
      cases h
      rfl

/-- At the end of the file there is nothing to parse. -/
theorem topLevelLoop_eof {s : State} (h : s.curKind = .eof) (fuel : Nat) :
    topLevelLoop fuel s = (none, s) := by
  cases fuel with
  | zero => rfl
  | succ fuel =>
      rw [topLevelLoop, read_bind, h]
      rfl

/-- **A run that returns true** has read a token at least, and has put none back. -/
theorem run_forward {s s' : State} (hnext : s.nextKind = none) (h : parserRun s = (true, s')) :
    s'.rest.length < s.rest.length ∧ s'.nextKind = none := by
  obtain ⟨fuel, hloop⟩ := run_eq_some h
  refine ⟨?_, topLevelLoop_nextKind fuel _ _ _ hloop⟩
  have hle := forward_topLevelLoop fuel { s.lex with isLocal := false, isFinal := false }
  rw [hloop] at hle
  cases hrest : s.rest with
  | nil =>
      have heof : s.lex.curKind = .eof := by
        unfold State.lex
        rw [hnext, hrest]
      rw [topLevelLoop_eof (s := { s.lex with isLocal := false, isFinal := false }) heof] at hloop
      cases hloop
  | cons x rest =>
      have hlex : s.lex.rest = rest := by
        unfold State.lex
        rw [hnext, hrest]
      refine Nat.lt_succ_of_le (le_trans hle ?_)
      exact (congrArg List.length hlex).le

end Metta.Meddler
