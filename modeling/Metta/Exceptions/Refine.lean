/-
  Metta.Exceptions.Refine — setjmp exceptions are structured exceptions.

  A program that halts on the machine of context blocks halts as its
  structured meaning tells, and the other way round; what the macros promise
  about the chain holds in every configuration on the way.

  One thing that structured exceptions have and the macros have not: a CATCH
  clause that raises leaves its TRY without the FINALLY clause.  And one thing
  that the macros have not thought of: OS_FINALLY cuts the `down` pointer that
  leads to its block, but not that of the block itself, which OS_ENDTRY follows
  after the FINALLY clause, to blocks that may be overwritten by then.

    • `Halts` — how a program ends, `LinksEnd` — what OS_ENDTRY may rely on,
    • `fault_of_not_linksEnd`, `linksEnd_of_halts` — without that it faults,
    • `halts_iff_means` — the machine and the meaning,
    • `setjmp_exceptions_structured` — with the promises about the chain,
    • `setjmp_exceptions_differ` — what structured exceptions do otherwise.
-/
import Metta.Exceptions.Chain

namespace Metta.Exceptions

open Metta.Machine Machine

variable {procs : Nat → Proc} {main : Proc} {m : Machine}

/-! ## §1. Halting. -/

/-- The machine makes the actions `t` and halts with `r`. -/
def Halts (procs : Nat → Proc) (main : Proc) (t : List Nat) (r : Result) : Prop :=
  ∃ m, Reaches (step procs) (init main) m ∧ m.control = .halted r ∧ m.trace = t

theorem step_halted {r : Result} (h : m.control = .halted r) : step procs m = none := by
  rw [step, h]

/-- A program halts in one way. -/
theorem Halts.unique {t t' : List Nat} {r r' : Result} (h : Halts procs main t r)
    (h' : Halts procs main t' r') : t = t' ∧ r = r' := by
  obtain ⟨m, hreach, hcontrol, rfl⟩ := h
  obtain ⟨m', hreach', hcontrol', rfl⟩ := h'
  have hsame : m = m' :=
    hreach.final_unique hreach' (step_halted hcontrol) (step_halted hcontrol')
  subst hsame
  rw [hcontrol] at hcontrol'
  cases hcontrol'
  exact ⟨rfl, rfl⟩

/-! ## §2. What FINALLY clauses leave. -/

/-- Where a FINALLY clause that makes calls is at its end and an exception goes on, the `down`
pointers still lead from the block of its TRY to a null pointer.  The blocks that they lead to are
those of TRYs that the exception has left: the clause may have called something, or entered a TRY,
over them. -/
def LinksEnd (m : Machine) : Prop :=
  ∀ c sc k f, m.control = .ret → m.k = .finally_ c sc :: k → (m.heap c).state = .active →
    (m.heap c).jmp.finally_ = some f → f.plain = false → LeadsToNull m.heap (m.heap c).down

theorem LinksEnd.walks (h : LinksEnd m) (hreach : Reaches (step procs) (init main) m) :
    Walks m := by
  have hrising := rising_of_reaches hreach
  intro c sc k f hret hk hactive hfinal hplain
  exact hrising.downChain (h c sc k f hret hk hactive hfinal hplain) fun b hb => hrising c b hb

/-- **Where the pointers do not lead to null, OS_ENDTRY faults.** -/
theorem fault_of_not_linksEnd (procs : Nat → Proc) (h : ¬ LinksEnd m) :
    ∃ m', step procs m = some m' ∧ m'.control = .halted .fault := by
  unfold LinksEnd at h
  push Not at h
  obtain ⟨c, sc, k, f, hret, hk, hactive, -, -, hlead⟩ := h
  have hnone : walkDown m.heap (m.deep + 1) c (m.heap c).down = none := by
    rw [← Option.not_isSome_iff_eq_none]
    exact fun hwalk => hlead (leadsToNull_of_walkDown hwalk)
  refine ⟨{ m with k := k, control := .halted .fault }, ?_, rfl⟩
  simp [step, hret, hk, endTry, hactive, hnone]

/-- In a program that halts without a fault they always do. -/
theorem linksEnd_of_halts {t : List Nat} {r : Result} (h : Halts procs main t r)
    (hr : r ≠ .fault) (hreach : Reaches (step procs) (init main) m) : LinksEnd m := by
  by_contra hlinks
  obtain ⟨m', hstep, hfault⟩ := fault_of_not_linksEnd procs hlinks
  exact hr (h.unique ⟨m', hreach.tail hstep, hfault, rfl⟩).2

/-! ## §3. The machine and the meaning. -/

/-- The end of the outermost statement is the end of the program. -/
theorem Ends.halts {n : Nat} {t : List Nat} {o : Outcome}
    (h : Ends procs (init main) n none [] t o) : Halts procs main t o.result := by
  obtain ⟨m, hreach, htrace, hend⟩ := h
  cases o with
  | undefined => exact ⟨m, hreach, hend, htrace⟩
  | normal =>
      obtain ⟨hcontrol, hk, -⟩ := hend
      have hstep : step procs m = some { m with control := .halted .done } := by
        simp [step, hcontrol, hk]
      exact ⟨_, hreach.tail hstep, rfl, htrace⟩
  | raised e =>
      obtain ⟨initial, hcontrol, hhandlers, -⟩ := hend
      have hstep : step procs m = some { m with control := .halted (.unhandled e) } := by
        simp [step, hcontrol, internalRaise, findContext, hhandlers]
      exact ⟨_, hreach.tail hstep, rfl, htrace⟩

theorem init_does (hsafe : Safe procs (init main)) (f : Nat) :
    Does procs f (init main) 0 none [] (eval false procs f main.body none) :=
  run_does procs f main.body ⟨0, main.frame, none⟩ 0 (init main) rfl (.proc main 0) hsafe
    (fun _ h => nomatch h) fun _ h => nomatch h

/-- **The machine halts where and how the meaning does.** -/
theorem halts_iff_means (hsafe : Safe procs (init main)) (t : List Nat) (r : Result) :
    Halts procs main t r ↔ Means false procs main t r := by
  constructor
  · rintro ⟨m, ⟨n, hrun⟩, hcontrol, rfl⟩
    -- with more fuel than the machine makes steps there is an answer
    have hdoes := init_does hsafe (n + 1)
    cases heval : eval false procs (n + 1) main.body none with
    | none =>
        rw [heval] at hdoes
        have := le_of_final hrun (step_halted hcontrol) hdoes
        omega
    | some a =>
        obtain ⟨t, o⟩ := a
        rw [heval] at hdoes
        obtain ⟨rfl, rfl⟩ := Halts.unique ⟨m, ⟨n, hrun⟩, hcontrol, rfl⟩ hdoes.halts
        exact ⟨n + 1, o, heval, rfl⟩
  · rintro ⟨n, o, heval, rfl⟩
    have hdoes := init_does hsafe n
    rw [heval] at hdoes
    exact hdoes.halts

/-- The raise in `m` goes to the innermost TRY whose body is running, with the exception
and off the chain; without one it is a panic. -/
def Delivered (procs : Nat → Proc) (m : Machine) (e : Exn) : Prop :=
  ∃ m', step procs m = some m' ∧
    match innermost m.k with
    | none => m'.control = .halted (.unhandled e)
    | some (c, jmp) =>
        m'.control = .jumped c ∧ (m'.heap c).exn = some e ∧ (m'.heap c).jmp = jmp ∧
          m'.handlers = (innermost jmp.k).map Prod.fst

theorem Sound.delivered (h : Sound m) {initial : Bool} {e : Exn}
    (hcontrol : m.control = .raising initial e) : Delivered procs m e := by
  obtain ⟨n, S⟩ : ∃ n, Stack m.heap n m.handlers m.k := by simpa [Sound, hcontrol] using h
  have hstep : step procs m = some (m.internalRaise initial e) := by simp [step, hcontrol]
  refine ⟨_, hstep, ?_⟩
  cases hh : m.handlers with
  | none =>
      rw [hh] at S
      have hnone : innermost m.k = none := Option.map_eq_none_iff.mp S.handlers_eq.symm
      rw [hnone]
      simp [internalRaise, Machine.findContext, hh]
  | some c =>
      rw [hh] at S
      obtain ⟨-, -, hstate, htop, S'⟩ := S.top
      rw [htop, internalRaise_top hh hstate]
      refine ⟨rfl, ?_, ?_, S'.handlers_eq⟩
      · simp [Machine.modify, Context.exn]
      · simp [Machine.modify]

/-- **Setjmp exceptions implement structured exceptions**, but for FINALLY after a CATCH
clause that raises, wherever the blocks of a program lie in its stack frames.  As long as
the calls of FINALLY clauses leave OS_ENDTRY an end of its walk, a program halts as its meaning
tells; and in every configuration of its run the chain holds only blocks in state none, the
search of a raise stops at the first of them, which is that of the innermost TRY whose body
runs, and a statement that comes to its end leaves the handlers as it found them. -/
theorem setjmp_exceptions_structured (procs : Nat → Proc) (main : Proc) :
    ((∀ m, Reaches (step procs) (init main) m → LinksEnd m) →
      ∀ t r, Halts procs main t r ↔ Means false procs main t r) ∧
    ∀ m, Reaches (step procs) (init main) m →
      (∀ c, OnChain m.heap m.handlers c → (m.heap c).state = .none) ∧
      findContext m.heap (m.deep + 1) m.handlers = m.handlers ∧
      (∀ initial e, m.control = .raising initial e → Delivered procs m e) ∧
      ∀ s sc, m.control = .run s sc → ∀ m', Reaches (step procs) m m' →
        m'.control = .ret → m'.k = m.k → m'.handlers = m.handlers := by
  refine ⟨fun hlinks => halts_iff_means fun m hreach => ?_, fun m hreach => ?_⟩
  · exact (hlinks m hreach).walks hreach
  · have hsound := sound_of_reaches hreach
    refine ⟨?_, hsound.findContext, fun initial e => hsound.delivered, ?_⟩
    · intro c hc
      obtain ⟨n, k, S⟩ := hsound.exists_stack
      exact S.state_of_onChain hc
    · intro s sc hrun m' hreach' hret hk
      have hsound' := sound_of_reaches (hreach.trans hreach')
      obtain ⟨n, -, S⟩ : ∃ n, sc.Room n s ∧ Stack m.heap n m.handlers m.k := by
        simpa [Sound, hrun] using hsound
      obtain ⟨n', S'⟩ : ∃ n', Stack m'.heap n' m'.handlers m'.k := by
        simpa [Sound, hret] using hsound'
      rw [S.handlers_eq, S'.handlers_eq, hk]

/-! ## §4. Programs. -/

/-- A TRY without clauses is laid out in the slot that it has. -/
theorem Stmt.Fits.plain {frame lo slot : Nat} {body : Stmt} (hlo : lo ≤ slot) (hslot : slot < frame)
    (hbody : body.Fits frame (slot + 1)) : Fits frame lo (.try_ slot body [] none) :=
  .try_ hlo hslot hbody (fun _ _ h => nomatch h) fun _ h => nomatch h

/-- A TRY with a FINALLY clause only. -/
theorem Stmt.Fits.tryFinally {frame lo slot : Nat} {body f : Stmt} (hlo : lo ≤ slot)
    (hslot : slot < frame) (hbody : body.Fits frame (slot + 1)) (hf : f.Fits frame (slot + 1)) :
    Fits frame lo (.try_ slot body [] (some f)) := by
  refine .try_ hlo hslot hbody (fun _ _ h => nomatch h) fun f' hf' => ?_
  cases hf'
  exact hf

/-- A TRY with one CATCH and a FINALLY clause. -/
theorem Stmt.Fits.tryCatch {frame lo slot : Nat} {body h f : Stmt} {name : Option String}
    (hlo : lo ≤ slot) (hslot : slot < frame) (hbody : body.Fits frame (slot + 1))
    (hh : h.Fits frame (slot + 1)) (hf : f.Fits frame (slot + 1)) :
    Fits frame lo (.try_ slot body [(name, h)] (some f)) := by
  refine .try_ hlo hslot hbody (fun name' h' hmem => ?_) fun f' hf' => ?_
  · cases List.mem_singleton.mp hmem
    exact hh
  · cases hf'
    exact hf

/-- A TRY that is quiet, one whose body raises, and a raise without a TRY. -/
def quiet : Proc := ⟨1, .try_ 0 .skip [] none, .plain le_rfl Nat.one_pos .skip⟩

def raises : Proc := ⟨1, .try_ 0 (.raise ⟨"a", 0⟩) [] none, .plain le_rfl Nat.one_pos .raise⟩

def throws : Proc := ⟨0, .raise ⟨"a", 0⟩, .raise⟩

/-- The procedures of the programs below. -/
def procedures (p : Nat) : Proc := if p = 0 then quiet else if p = 1 then raises else throws

/-- An exception passes a TRY with a FINALLY clause and is caught outside; then another passes a
TRY whose FINALLY clause makes a call. -/
def passes : Proc where
  frame := 2
  body := .seq
    (.try_ 0 (.try_ 1 (.call 1) [] (some (.act 1))) [(some "a", .act 2)] (some (.act 3)))
    (.try_ 0 (.call 2) [] (some (.call 0)))
  fits := .seq
    (.tryCatch le_rfl Nat.two_pos (.tryFinally le_rfl Nat.one_lt_two .call .act) .act .act)
    (.tryFinally le_rfl Nat.two_pos .call .call)

/-- In the first TRY OS_ENDTRY follows the pointer to the block of the procedure, and in the last
one there is none to follow. -/
theorem setjmp_exceptions_structured_passes :
    Means false procedures passes [1, 2, 3] (.unhandled ⟨"a", 0⟩) := by
  have hhalts : Halts procedures passes [1, 2, 3] (.unhandled ⟨"a", 0⟩) :=
    ⟨_, ⟨30, rfl⟩, rfl, rfl⟩
  refine ((setjmp_exceptions_structured procedures passes).1 ?_ [1, 2, 3] _).mp hhalts
  exact fun m => linksEnd_of_halts hhalts fun h => nomatch h

/-- A FINALLY clause that does not run: the CATCH clause of its TRY raises. -/
def raiseInCatch : Proc where
  frame := 1
  body := .try_ 0 (.raise ⟨"a", 0⟩) [(some "a", .raise ⟨"b", 0⟩)] (some (.act 1))
  fits := .tryCatch le_rfl Nat.one_pos .raise .raise .act

/-- A FINALLY clause that puts a TRY over the one that the exception has left. -/
def callInFinally : Proc where
  frame := 1
  body := .try_ 0 (.call 1) [] (some (.call 0))
  fits := .tryFinally le_rfl Nat.one_pos .call .call

/-- **FINALLY is not run after a CATCH clause that raises**, where structured exceptions run it;
**and a FINALLY clause that calls can leave OS_ENDTRY without an end**: the `down` pointer leads to
where the block of the new TRY has the mark for writable. -/
theorem setjmp_exceptions_differ :
    (¬ ∀ t r, Halts procedures raiseInCatch t r ↔ Means true procedures raiseInCatch t r) ∧
    (¬ ∀ t r, Halts procedures callInFinally t r ↔ Means true procedures callInFinally t r) ∧
    Halts procedures callInFinally [] .fault := by
  have hcatch : Halts procedures raiseInCatch [] (.unhandled ⟨"b", 0⟩) :=
    ⟨_, ⟨6, rfl⟩, rfl, rfl⟩
  have hfault : Halts procedures callInFinally [] .fault := ⟨_, ⟨13, rfl⟩, rfl, rfl⟩
  refine ⟨fun h => ?_, fun h => ?_, hfault⟩
  · have hmeans : Means true procedures raiseInCatch [1] (.unhandled ⟨"b", 0⟩) := ⟨3, _, rfl, rfl⟩
    have hsame := ((h _ _).mpr hmeans).unique hcatch
    exact absurd hsame.1 (List.cons_ne_nil _ _)
  · have hmeans : Means true procedures callInFinally [] (.unhandled ⟨"a", 0⟩) := ⟨5, _, rfl, rfl⟩
    have hsame := ((h _ _).mpr hmeans).unique hfault
    cases hsame.2

end Metta.Exceptions
