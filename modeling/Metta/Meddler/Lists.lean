/-
  Metta.Meddler.Lists — lists in brackets, and the errors that are reported.

  The lists of arguments and of identifiers are read up to their end, or the
  functions fail.  Where the lists of fields and of choices fail, their callers
  go on, but an error has been reported then.

    • `parseArgumentList_sound`, `parseIdList_sound`, … — lists in brackets,
    • `errorReporting_expect`, … — functions that report their failures,
    • `listUntil_reporting` — a list that has not come to its end.
-/
import Metta.Meddler.Accepts

namespace Metta.Meddler

open Metta.Machine Attempt State

/-! ## §1. Lists in brackets. -/

theorem map_eq_of_forall₂ {α β γ : Type} {f : α → γ} {g : β → γ} {as : List α} {bs : List β}
    (h : List.Forall₂ (fun a b => f a = g b) as bs) : as.map f = bs.map g := by
  induction h with
  | nil => rfl
  | cons h _ ih => rw [List.map_cons, List.map_cons, h, ih]

section Brackets

variable {s s' : State} {w r : List Lexeme}

theorem parseArgumentList_sound (hs : s.Reading w) {defaultDir : Direction} {ps : List Parameter}
    (h : parseArgumentList defaultDir s = (some ps, s')) :
    ∃ (a : Arguments) (r : List Lexeme), a.Ok s.symbols ∧
      w = commaTokens Argument.tokens a.trailing a.items ++ .sign .rparen :: r ∧
      ps.map Parameter.bare = a.parameters defaultDir ∧ s.Goes (.sign .rparen :: r) s' := by
  rw [parseArgumentList] at h
  obtain ⟨⟨args, ok⟩, s₁, h₁, h⟩ := bind_eq_some.mp h
  cases ok with
  | false => cases h
  | true =>
      cases h
      have hspec := parseArgument_spec hs.grown defaultDir
      obtain ⟨xs, r, hrow, hrel, hgo⟩ := listUntil_sound hspec hs h₁
      obtain ⟨trailing, hw, hok⟩ := hrow.commaTokens hspec.first
      exact ⟨⟨xs, trailing⟩, r, hok, hw, map_eq_of_forall₂ hrel, hgo⟩

theorem parseArgumentList_complete (a : Arguments) (defaultDir : Direction)
    (hs : s.Reading (commaTokens Argument.tokens a.trailing a.items ++ .sign .rparen :: r))
    (ha : a.Ok s.symbols) :
    ∃ ps s', parseArgumentList defaultDir s = (some ps, s') ∧
      ps.map Parameter.bare = a.parameters defaultDir ∧ s.Goes (.sign .rparen :: r) s' := by
  obtain ⟨ps, s₁, h₁, hrel, hgo⟩ := listUntil_complete (parseArgument_spec hs.grown defaultDir) hs
    (inRow_commaTokens a.trailing ha)
  refine ⟨ps, s₁, ?_, map_eq_of_forall₂ hrel, hgo⟩
  rw [parseArgumentList, bind_of_some h₁]
  rfl

/-- The loop over identifiers ends before its delimiter or before a bracket. -/
theorem idLoop_sound (hs : s.Reading w) {delim : Sign} {fuel : Nat} {ids : List Ident}
    (h : idLoop (.sign delim) fuel s = (some ids, s')) :
    ∃ trailing g r, (∀ x ∈ ids, s.symbols.IsId x) ∧
      w = commaTokens (fun x => [.word x]) trailing ids ++ .sign g :: r ∧
      (g = .rparen ∨ (g = delim ∧ trailing = false ∧ ids ≠ [])) ∧ s.Goes (.sign g :: r) s' := by
  induction fuel generalizing s w ids with
  | zero => cases h
  | succ fuel ih =>
      rw [idLoop, bind_of_some (lex_eq hs.reads), bind_of_some (matches_apply _ _)] at h
      split at h
      · -- a bracket ends the list
        next hstop =>
          have hstop : firstKind s.symbols w = .sign .rparen := of_decide_eq_true hstop
          cases w with
          | nil => cases hstop
          | cons x r =>
              obtain rfl := (kind_eq_sign hs.grown).mp hstop
              cases h
              exact ⟨false, .rparen, r, by simp, rfl, .inl rfl, hs.goes_lexback⟩
      · -- an identifier, and what is behind it
        have hgo := hs.goes_lexback
        rw [lexback, modify_bind] at h
        obtain ⟨x, s₂, h₂, hnext⟩ := bind_eq_some.mp h
        clear h
        obtain ⟨r, rfl, hx, hgo₂⟩ := parseId_sound hgo.reading h₂
        rw [hgo.keeps.symbols] at hx
        have hgo₂ := hgo.trans hgo₂
        rw [bind_of_some (wantLex_eq hgo₂.reading.reads _)] at hnext
        split at hnext
        · next hcomma =>
            obtain ⟨y, r, rfl, hy⟩ := firstKind_wanted (by simp) hcomma
            rw [Kind.wanted_eq (by simp), kind_eq_sign hgo₂.reading.grown] at hy
            subst hy
            have hgo₃ := hgo₂.trans hgo₂.reading.goes_readAt
            obtain ⟨ids', s₃, h₃, hdone⟩ := bind_eq_some.mp hnext
            cases hdone
            obtain ⟨trailing, g, r, hids, rfl, hend, hgo₄⟩ := ih hgo₃.reading h₃
            rw [hgo₃.keeps.symbols] at hids
            have hall : ∀ y ∈ x :: ids', s.symbols.IsId y := List.forall_mem_cons.mpr ⟨hx, hids⟩
            -- a comma may be behind the last identifier, in front of a bracket only
            cases ids' with
            | nil =>
                refine ⟨true, g, r, hall, by simp [commaTokens], ?_, hgo₃.trans hgo₄⟩
                exact .inl (hend.resolve_right fun hno => hno.2.2 rfl)
            | cons y ys =>
                refine ⟨trailing, g, r, hall, by simp [commaTokens], ?_, hgo₃.trans hgo₄⟩
                exact hend.imp id fun hg => ⟨hg.1, hg.2.1, by simp⟩
        · rw [bind_of_some (matches_apply _ _)] at hnext
          split at hnext
          · -- the delimiter ends the list behind an identifier
            next hdelim =>
              have hdelim : firstKind s₂.symbols r = .sign delim := of_decide_eq_true hdelim
              cases r with
              | nil => cases hdelim
              | cons y r =>
                  obtain rfl := (kind_eq_sign hgo₂.reading.grown).mp hdelim
                  cases hnext
                  refine ⟨false, delim, r, by simpa using hx, by simp [commaTokens],
                    .inr ⟨rfl, rfl, by simp⟩, hgo₂.trans hgo₂.reading.goes_lexback⟩
          · cases hnext

/-- The loop reads identifiers up to the delimiter. -/
theorem idLoop_complete {ids : List Ident} {trailing : Bool} {g : Sign}
    (hs : s.Reading (commaTokens (fun x => [.word x]) trailing ids ++ .sign g :: r))
    (hids : ∀ x ∈ ids, s.symbols.IsId x) (hg : g ≠ .comma)
    (hend : g = .rparen ∨ (trailing = false ∧ ids ≠ [])) {fuel : Nat} (hfuel : ids.length < fuel) :
    ∃ s', idLoop (.sign g) fuel s = (some ids, s') ∧ s.Goes (.sign g :: r) s' := by
  induction ids generalizing s fuel with
  | nil =>
      obtain ⟨fuel, rfl⟩ := Nat.exists_eq_succ_of_ne_zero (Nat.ne_zero_of_lt hfuel)
      obtain rfl := hend.resolve_right fun hno => hno.2 rfl
      refine ⟨_, ?_, hs.goes_lexback⟩
      rw [idLoop, bind_of_some (lex_eq hs.reads), bind_of_some (matches_apply _ _)]
      rfl
  | cons x ids ih =>
      obtain ⟨fuel, rfl⟩ := Nat.exists_eq_succ_of_ne_zero (Nat.ne_zero_of_lt hfuel)
      obtain ⟨hx, hids⟩ := List.forall_mem_cons.mp hids
      -- the token is not a bracket, so it is put back and read as an identifier
      have hstep : ∀ u, s.Reading (.word x :: u) → ∃ s₁, s.Goes u s₁ ∧
          idLoop (.sign g) (fuel + 1) s = (do
            if ← wantLex (.sign .comma) then
              let ids ← idLoop (.sign g) fuel
              return x :: ids
            else if ← matches_ (.sign g) then
              lexback
              return [x]
            else
              parseError ", or delimiter expected") s₁ := by
        intro u hs
        have hgo := hs.goes_lexback
        obtain ⟨s₁, h₁, hgo₁⟩ := parseId_complete hgo.reading
          (by rw [hgo.keeps.symbols]; exact hx) "type ID expected"
        refine ⟨s₁, hgo.trans hgo₁, ?_⟩
        have hno : ¬ decide ((s.readAt (.word x :: u)).curKind = .sign .rparen) = true := by
          rw [decide_eq_true_eq]
          exact firstKind_word_ne_sign hs.grown x u .rparen
        rw [idLoop, bind_of_some (lex_eq hs.reads), bind_of_some (matches_apply _ _), if_neg hno]
        exact bind_of_some h₁
      -- with a comma behind it the loop goes on
      have hcomma : ∀ u, s.Reading (.word x :: .sign .comma :: u) →
          (∀ s₁ : State, s₁.Reading u → s₁.symbols = s.symbols → ∃ s', idLoop (.sign g) fuel s₁
            = (some ids, s') ∧ s₁.Goes (.sign g :: r) s') →
          ∃ s', idLoop (.sign g) (fuel + 1) s = (some (x :: ids), s') ∧
            s.Goes (.sign g :: r) s' := by
        intro u hs hrest
        obtain ⟨s₁, hgo₁, hloop⟩ := hstep _ hs
        have hgo₂ := hgo₁.trans hgo₁.reading.goes_readAt
        obtain ⟨s', h', hgo'⟩ := hrest _ hgo₂.reading hgo₂.keeps.symbols
        refine ⟨s', ?_, hgo₂.trans hgo'⟩
        rw [hloop, bind_of_some (wantLex_eq hgo₁.reading.reads _)]
        exact bind_of_some h'
      cases ids with
      | nil =>
          cases trailing with
          | true =>
              obtain rfl := hend.resolve_right fun hno => by cases hno.1
              exact hcomma _ hs fun s₁ hs₁ _ => ih hs₁ (by simp) (.inl rfl) (by simpa using hfuel)
          | false =>
              obtain ⟨s₁, hgo₁, hloop⟩ := hstep (.sign g :: r) hs
              refine ⟨_, ?_, hgo₁.trans hgo₁.reading.goes_lexback⟩
              have hno : Kind.wanted (.sign .comma) (firstKind s₁.symbols (.sign g :: r)) = false := by
                rw [← Bool.not_eq_true, Kind.wanted_eq (by simp)]
                simpa [firstKind, Lexeme.kind] using hg
              have hyes : decide ((s₁.readAt (.sign g :: r)).curKind = .sign g) = true :=
                decide_eq_true (show firstKind s₁.symbols (.sign g :: r) = _ from rfl)
              rw [hloop, bind_of_some (wantLex_eq hgo₁.reading.reads _), hno, if_neg (by simp),
                bind_of_some (matches_apply _ _), if_pos hyes]
              rfl
      | cons y ys =>
          refine hcomma _ hs fun s₁ hs₁ hsym => ih hs₁ (by rw [hsym]; exact hids) ?_
            (by simpa using hfuel)
          exact hend.imp id fun h => ⟨h.1, by simp⟩

theorem commaTokens_length_le {α : Type} {tokens : α → List Lexeme} (htokens : ∀ a, 0 < (tokens a).length)
    (trailing : Bool) (as : List α) : as.length ≤ (commaTokens tokens trailing as).length := by
  induction as with
  | nil => simp
  | cons a as ih =>
      have := htokens a
      cases as with
      | nil =>
          simp only [commaTokens, List.length_append, List.length_singleton]
          omega
      | cons b bs =>
          simp only [commaTokens, List.length_append, List.length_cons] at ih ⊢
          omega

theorem parseIdList_sound (hs : s.Reading w) {delim : Sign} {ids : List Ident}
    (h : parseIdList (.sign delim) s = (some ids, s')) :
    ∃ trailing g r, (∀ x ∈ ids, s.symbols.IsId x) ∧
      w = commaTokens (fun x => [.word x]) trailing ids ++ .sign g :: r ∧
      (g = .rparen ∨ (g = delim ∧ trailing = false ∧ ids ≠ [])) ∧ s.Goes (.sign g :: r) s' := by
  rw [parseIdList, read_bind] at h
  exact idLoop_sound hs h

theorem parseIdList_complete {ids : List Ident} {trailing : Bool} {g : Sign}
    (hs : s.Reading (commaTokens (fun x => [.word x]) trailing ids ++ .sign g :: r))
    (hids : ∀ x ∈ ids, s.symbols.IsId x) (hg : g ≠ .comma)
    (hend : g = .rparen ∨ (trailing = false ∧ ids ≠ [])) :
    ∃ s', parseIdList (.sign g) s = (some ids, s') ∧ s.Goes (.sign g :: r) s' := by
  have h₁ := commaTokens_length_le (fun x : Ident => by simp : ∀ x : Ident, 0 < ([Lexeme.word x]).length) trailing ids
  have h₂ := Reads.length_le hs.reads
  simp only [List.length_append, List.length_cons] at h₂
  rw [parseIdList, read_bind]
  exact idLoop_complete hs hids hg hend (by omega)

end Brackets

/-! ## §2. Failures that are reported. -/

/-- There is a tree. -/
def State.HasTree (s : State) : Prop := s.parseTree.isSome

/-- The number of errors that were reported. -/
def State.errorCount (s : State) : Nat := s.errors.length

/-- Every failure has reported an error. -/
abbrev ErrorReporting {α : Type} (p : Parse α) : Prop := Reporting HasTree errorCount p

theorem State.lex_keeps (s : State) : s.lex.parseTree = s.parseTree ∧ s.lex.errors = s.errors := by
  rw [lex]
  split
  · exact ⟨rfl, rfl⟩
  · split
    · exact ⟨rfl, rfl⟩
    · exact ⟨rfl, rfl⟩

theorem errorReporting_lex : ErrorReporting lex := by
  refine reporting_of_ok fun s hI => ⟨(), s.lex, rfl, ?_, ?_⟩
  · rw [HasTree, s.lex_keeps.1]
    exact hI
  · rw [errorCount, errorCount, s.lex_keeps.2]

theorem errorReporting_lexback : ErrorReporting lexback :=
  reporting_of_ok fun s hI => ⟨(), s.lexback, rfl, hI, rfl⟩

theorem errorReporting_matches (k : Kind) : ErrorReporting (matches_ k) := reporting_read _

theorem errorReporting_wantLex (k : Kind) : ErrorReporting (wantLex k) :=
  errorReporting_lex.bind fun _ => reporting_read _

theorem errorReporting_maybe (k : Kind) : ErrorReporting (maybe k) :=
  (errorReporting_wantLex k).bind fun _ =>
    (reporting_pure _).ite (errorReporting_lexback.bind fun _ => reporting_pure _)

theorem errorReporting_parseError {α : Type} (msg : String) : ErrorReporting (parseError msg : Parse α) := by
  constructor
  · intro s a s' _ h
    cases h
  · intro s s' hI h
    cases h
    exact ⟨hI, by simp [errorCount]⟩

theorem errorReporting_expect (k : Kind) (msg : String) : ErrorReporting (expect k msg) :=
  (errorReporting_wantLex k).bind fun _ => (reporting_pure _).ite (errorReporting_parseError msg)

theorem errorReporting_parseId (msg : String) : ErrorReporting (parseId msg) :=
  (errorReporting_expect _ msg).bind fun _ => reporting_read _

theorem errorReporting_configureType (a : Alias) : ErrorReporting (configureType a) := by
  refine reporting_of_ok fun s hI => ?_
  obtain ⟨tree, htree⟩ := Option.isSome_iff_exists.mp hI
  refine ⟨_, _, by rw [configureType, htree], ?_, ?_⟩
  · rfl
  · rfl

theorem errorReporting_parseTypeDecl (a : Alias) : ErrorReporting (parseTypeDecl a) := by
  refine Reporting.bind ?_ fun type => (errorReporting_maybe _).bind fun _ =>
    errorReporting_configureType _
  refine (errorReporting_wantLex _).bind fun _ => (reporting_read _).ite ?_
  exact (errorReporting_matches _).bind fun _ =>
    (reporting_read _).ite (errorReporting_parseError _)

theorem errorReporting_parseVarDecl (a : Alias) : ErrorReporting (parseVarDecl a) :=
  (errorReporting_maybe _).bind fun _ => (reporting_read _).bind fun _ =>
    (errorReporting_parseTypeDecl _).bind fun _ => (errorReporting_parseId _).bind fun _ =>
      reporting_pure _

theorem errorReporting_separator (stop : Kind) (msg : String) : ErrorReporting (separator stop msg) := by
  refine (errorReporting_wantLex _).bind fun _ => (reporting_pure _).ite ?_
  exact (errorReporting_matches _).bind fun _ =>
    errorReporting_lexback.ite (errorReporting_parseError _)

/-- An item that reports its failures, also those after it was added. -/
structure ItemReporting {α : Type} (item : Parse (α × Bool)) : Prop where
  reporting : ErrorReporting item
  notDone : ∀ s a s', s.HasTree → item s = (some (a, false), s') → s.errorCount < s'.errorCount

theorem itemReporting_parseField : ItemReporting parseField where
  reporting := (errorReporting_parseVarDecl _).bind fun _ => (errorReporting_expect _ _).bind fun _ =>
    reporting_pure _
  notDone s a s' _ h := by
    rw [parseField] at h
    obtain ⟨field, s₁, -, h⟩ := bind_eq_some.mp h
    obtain ⟨_, s₂, -, h⟩ := bind_eq_some.mp h
    cases h

theorem itemReporting_parseChoiceDecl : ItemReporting parseChoiceDecl where
  reporting := by
    refine (errorReporting_parseId _).bind fun _ => (errorReporting_expect _ _).bind fun _ =>
      (errorReporting_parseTypeDecl _).bind fun _ => ⟨?_, ?_⟩
    · refine (errorReporting_separator _ _).attempt.bind fun x => ?_
      cases x with
      | none => exact (reporting_pure _).1
      | some _ => exact (reporting_pure _).1
    · intro s s' _ h
      rw [attempt_bind] at h
      rcases hsep : separator (.sign .rbrace) ", or \x7d expected" s with ⟨_ | _, s₁⟩
      · rw [hsep] at h
        cases h
      · rw [hsep] at h
        cases h
  notDone s a s' hI h := by
    rw [parseChoiceDecl] at h
    obtain ⟨name, s₁, h₁, h⟩ := bind_eq_some.mp h
    obtain ⟨hI₁, hle₁⟩ := (errorReporting_parseId _).1 _ _ _ hI h₁
    obtain ⟨_, s₂, h₂, h⟩ := bind_eq_some.mp h
    obtain ⟨hI₂, hle₂⟩ := (errorReporting_expect _ _).1 _ _ _ hI₁ h₂
    obtain ⟨choice, s₃, h₃, h⟩ := bind_eq_some.mp h
    obtain ⟨hI₃, hle₃⟩ := (errorReporting_parseTypeDecl _).1 _ _ _ hI₂ h₃
    rw [attempt_bind] at h
    rcases hsep : separator (.sign .rbrace) ", or \x7d expected" s₃ with ⟨_ | _, s₄⟩
    · rw [hsep] at h
      obtain ⟨-, rfl⟩ : _ ∧ s₄ = s' := Prod.mk.inj h
      have hlt := ((errorReporting_separator _ _).2 _ _ hI₃ hsep).2
      omega
    · rw [hsep] at h
      cases h

/-- A list that does not come to its end has reported an error. -/
theorem listLoop_reporting {α : Type} {item : Parse (α × Bool)} (hitem : ItemReporting item)
    (stop : Kind) (fuel : Nat) : ∀ {s s' : State} {as : List α} {ok : Bool}, s.HasTree →
      listLoop stop item fuel s = (some (as, ok), s') →
      s'.HasTree ∧ s.errorCount ≤ s'.errorCount ∧ (ok = false → s.errorCount < s'.errorCount) := by
  induction fuel with
  | zero =>
      intro s s' as ok _ h
      cases h
  | succ fuel ih =>
      intro s s' as ok hI h
      rw [listLoop] at h
      obtain ⟨_, s₁, h₁, h⟩ := bind_eq_some.mp h
      obtain ⟨hI₁, hle₁⟩ := errorReporting_lex.1 _ _ _ hI h₁
      obtain ⟨atEnd, s₂, h₂, h⟩ := bind_eq_some.mp h
      obtain ⟨hI₂, hle₂⟩ := (errorReporting_matches _).1 _ _ _ hI₁ h₂
      have hback : s₂.lexback.HasTree ∧ s₂.lexback.errorCount = s₂.errorCount := ⟨hI₂, rfl⟩
      cases atEnd with
      | true =>
          cases h
          exact ⟨hback.1, by omega, fun hok => by cases hok⟩
      | false =>
          rw [if_neg Bool.false_ne_true, lexback, modify_bind, attempt_bind] at h
          rcases hx : item s₂.lexback with ⟨_ | ⟨a, _ | _⟩, s₃⟩
          · rw [hx] at h
            obtain ⟨heq, rfl⟩ : _ ∧ s₃ = s' := Prod.mk.inj h
            obtain ⟨hI₃, hlt⟩ := hitem.reporting.2 _ _ hback.1 hx
            exact ⟨hI₃, by omega, fun _ => by omega⟩
          · rw [hx] at h
            obtain ⟨heq, rfl⟩ : _ ∧ s₃ = s' := Prod.mk.inj h
            have hlt := hitem.notDone _ _ _ hback.1 hx
            exact ⟨(hitem.reporting.1 _ _ _ hback.1 hx).1, by omega, fun _ => by omega⟩
          · rw [hx] at h
            obtain ⟨hI₃, hle₃⟩ := hitem.reporting.1 _ _ _ hback.1 hx
            obtain ⟨⟨as', ok'⟩, s₄, hrest, h⟩ := bind_eq_some.mp h
            cases h
            obtain ⟨hI₄, hle₄, hlt₄⟩ := ih hI₃ hrest
            exact ⟨hI₄, by omega, fun hok => by have := hlt₄ hok; omega⟩

theorem listUntil_reporting {α : Type} {item : Parse (α × Bool)} (hitem : ItemReporting item)
    {stop : Kind} {s s' : State} {as : List α} {ok : Bool} (hI : s.HasTree)
    (h : listUntil stop item s = (some (as, ok), s')) :
    s'.HasTree ∧ s.errorCount ≤ s'.errorCount ∧ (ok = false → s.errorCount < s'.errorCount) := by
  rw [listUntil, read_bind] at h
  exact listLoop_reporting hitem stop _ hI h

end Metta.Meddler
