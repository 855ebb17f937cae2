/-
  Metta.Exceptions.Chain — the handlers chain in every configuration of a run.

  The stack decides what the chain is: its blocks are those of the TRY bodies
  on the stack, innermost first, each in state none and each with the stack
  below it in its jump buffer.  The block of a TRY whose clause or FINALLY
  runs is off the chain and leads up to what is left of it.  Blocks on the
  stack lie before all that the running statement may write to.

    • `Stack` — that shape, `Sound` — a machine that has it,
    • `step_sound`, `sound_of_reaches` — every step keeps it,
    • `Sound.findContext` — the search of `internal_raise` stops at once,
    • `Rising`, `rising_of_reaches` — `down` pointers lead to deeper blocks.
-/
import Metta.Exceptions.Simulation

namespace Metta.Exceptions

open Metta.Machine Machine

variable {procs : Nat → Proc} {m m' : Machine} {heap heap' : Nat → Context} {n n' c : Nat}
  {handlers : Option Nat} {k : List Frame} {sc : Scope}

/-! ## §1. The shape of the stack. -/

/-- The stack `k` with its chain `handlers`; blocks are below `n`, lower ones are further out,
and what is still to run lies behind them. -/
inductive Stack (heap : Nat → Context) : Nat → Option Nat → List Frame → Prop
  | nil {n : Nat} : Stack heap n none []
  | seq {n n' : Nat} {handlers : Option Nat} {k : List Frame} {t : Stmt} {sc : Scope} :
      n' ≤ n → sc.Room n' t → Stack heap n' handlers k → Stack heap n handlers (.seq t sc :: k)
  | body {n c : Nat} {up : Option Nat} {k : List Frame} {catches : Catches} {fin : Option Stmt}
      {sc : Scope} :
      c < n → Clauses sc c catches fin → (heap c).state = .none →
      (heap c).jmp = ⟨catches, fin, k, sc⟩ → (heap c).up = up → Stack heap c up k →
      Stack heap n (some c) (.body c catches fin sc :: k)
  | clause {n c : Nat} {handlers : Option Nat} {k : List Frame} {fin : Option Stmt} {sc : Scope} :
      c < n → Clauses sc c [] fin → (heap c).state = .handled → (heap c).up = handlers →
      Stack heap c handlers k → Stack heap n handlers (.clause c fin sc :: k)
  | finally_ {n c : Nat} {handlers : Option Nat} {k : List Frame} {sc : Scope} :
      c < n → c < sc.sp → (heap c).state ≠ .none → (heap c).up = handlers →
      Stack heap c handlers k → Stack heap n handlers (.finally_ c sc :: k)

/-- The innermost TRY whose body is on the stack: its block and its jump buffer. -/
def innermost : List Frame → Option (Nat × JmpBuf)
  | [] => none
  | .body c catches fin sc :: k => some (c, ⟨catches, fin, k, sc⟩)
  | .seq _ _ :: k => innermost k
  | .clause _ _ _ :: k => innermost k
  | .finally_ _ _ :: k => innermost k

/-- The blocks that the chain from `handlers` goes through. -/
inductive OnChain (heap : Nat → Context) : Option Nat → Nat → Prop
  | head {c : Nat} : OnChain heap (some c) c
  | up {c d : Nat} : OnChain heap (heap c).up d → OnChain heap (some c) d

namespace Stack

theorem mono (S : Stack heap n handlers k) (hn : n ≤ n') : Stack heap n' handlers k := by
  induction S with
  | nil => exact .nil
  | seq hle hroom S _ => exact .seq (hle.trans hn) hroom S
  | body hc hcl hstate hjmp hup S _ => exact .body (lt_of_lt_of_le hc hn) hcl hstate hjmp hup S
  | clause hc hcl hstate hup S _ => exact .clause (lt_of_lt_of_le hc hn) hcl hstate hup S
  | finally_ hc hsp hstate hup S _ => exact .finally_ (lt_of_lt_of_le hc hn) hsp hstate hup S

/-- Only the state, the jump buffer and the `up` of the blocks matter. -/
theorem congr (S : Stack heap n handlers k)
    (hsame : ∀ i < n, heap' i = { heap i with
      down := (heap' i).down, name := (heap' i).name, args := (heap' i).args }) :
    Stack heap' n handlers k := by
  induction S with
  | nil => exact .nil
  | seq hle hroom _ ih => exact .seq hle hroom (ih fun i hi => hsame i (lt_of_lt_of_le hi hle))
  | body hc hcl hstate hjmp hup _ ih =>
      refine .body hc hcl ?_ ?_ ?_ (ih fun i hi => hsame i (lt_trans hi hc))
      · rw [hsame _ hc, hstate]
      · rw [hsame _ hc, hjmp]
      · rw [hsame _ hc, hup]
  | clause hc hcl hstate hup _ ih =>
      refine .clause hc hcl ?_ ?_ (ih fun i hi => hsame i (lt_trans hi hc))
      · rw [hsame _ hc, hstate]
      · rw [hsame _ hc, hup]
  | finally_ hc hsp hstate hup _ ih =>
      refine .finally_ hc hsp ?_ ?_ (ih fun i hi => hsame i (lt_trans hi hc))
      · rw [hsame _ hc]
        exact hstate
      · rw [hsame _ hc, hup]

/-- A change of a block that is not below `n`. -/
theorem modify {ctx : Context} (S : Stack heap n handlers k) (hc : n ≤ c) :
    Stack (Function.update heap c ctx) n handlers k :=
  S.congr fun i hi => by rw [Function.update_of_ne (by omega)]

/-- A call from `sp` on. -/
theorem clobber {sp : Nat} (S : Stack heap n handlers k) (hsp : n ≤ sp) :
    Stack (clobber heap sp) n handlers k :=
  S.congr fun i hi => by rw [Exceptions.clobber, if_pos (lt_of_lt_of_le hi hsp)]

/-- A change of a `down` pointer. -/
theorem setDown {d : Down} (S : Stack heap n handlers k) (c : Nat) :
    Stack (Function.update heap c { heap c with down := d }) n handlers k := by
  refine S.congr fun i _ => ?_
  by_cases hi : i = c
  · rw [hi, Function.update_self]
  · rw [Function.update_of_ne hi]

theorem kept {handlers' : Option Nat} (S : Stack heap n handlers k)
    (hkept : Kept n handlers' heap heap') : Stack heap' n handlers k := by
  refine S.congr fun i hi => ?_
  by_cases htop : handlers' = some i
  · rw [(hkept.top i hi htop).1]
  · rw [hkept.other i hi htop]

/-- The head of the chain is the block of the innermost TRY body. -/
theorem handlers_eq (S : Stack heap n handlers k) :
    handlers = (innermost k).map Prod.fst := by
  induction S with
  | nil => rfl
  | seq _ _ _ ih => exact ih
  | body => rfl
  | clause _ _ _ _ _ ih => exact ih
  | finally_ _ _ _ _ _ ih => exact ih

/-- The innermost TRY body: its block is in state none, and what is below it has the
same shape. -/
theorem top (S : Stack heap n (some c) k) :
    c < n ∧ Clauses (heap c).jmp.sc c (heap c).jmp.catches (heap c).jmp.finally_ ∧
      (heap c).state = .none ∧ innermost k = some (c, (heap c).jmp) ∧
      Stack heap c (heap c).up (heap c).jmp.k := by
  generalize hh : some c = handlers at S
  induction S with
  | nil => cases hh
  | seq hle _ _ ih =>
      obtain ⟨h1, hrest⟩ := ih hh
      exact ⟨lt_of_lt_of_le h1 hle, hrest⟩
  | body hc hcl hstate hjmp hup S _ =>
      cases hh
      exact ⟨hc, by rw [hjmp]; exact hcl, hstate, by rw [hjmp]; rfl, by rw [hjmp, hup]; exact S⟩
  | clause hc _ _ _ _ ih =>
      obtain ⟨h1, hrest⟩ := ih hh
      exact ⟨lt_trans h1 hc, hrest⟩
  | finally_ hc _ _ _ _ ih =>
      obtain ⟨h1, hrest⟩ := ih hh
      exact ⟨lt_trans h1 hc, hrest⟩

theorem handlers_lt (S : Stack heap n handlers k) : ∀ p, handlers = some p → p < n := by
  rintro p rfl
  exact S.top.1

theorem state_of_onChain (S : Stack heap n handlers k) {d : Nat} (h : OnChain heap handlers d) :
    (heap d).state = .none := by
  induction h generalizing n k with
  | head => exact S.top.2.2.1
  | up _ ih => exact ih S.top.2.2.2.2

end Stack

/-! ## §2. Every step keeps the shape. -/

/-- The shape of a configuration.  After a jump it is the stack of the jump buffer that
counts. -/
def Sound (m : Machine) : Prop :=
  match m.control with
  | .run s sc => ∃ n, sc.Room n s ∧ Stack m.heap n m.handlers m.k
  | .jumped c =>
      Clauses (m.heap c).jmp.sc c (m.heap c).jmp.catches (m.heap c).jmp.finally_ ∧
        (m.heap c).state = .active ∧ (m.heap c).up = m.handlers ∧
        Stack m.heap c m.handlers (m.heap c).jmp.k
  | .halted _ => ∃ n k, Stack m.heap n m.handlers k
  | .ret => ∃ n, Stack m.heap n m.handlers m.k
  | .raising _ _ => ∃ n, Stack m.heap n m.handlers m.k

theorem Sound.exists_stack (h : Sound m) : ∃ n k, Stack m.heap n m.handlers k := by
  rw [Sound] at h
  split at h
  · obtain ⟨n, -, S⟩ := h
    exact ⟨n, _, S⟩
  · exact ⟨_, _, h.2.2.2⟩
  · exact h
  · obtain ⟨n, S⟩ := h
    exact ⟨n, _, S⟩
  · obtain ⟨n, S⟩ := h
    exact ⟨n, _, S⟩

/-- The chain before the TRY with block `c` is left: the block is still on it unless
its state says otherwise. -/
structure Leavable (m : Machine) (c : Nat) (handlers : Option Nat) : Prop where
  up : (m.heap c).up = handlers
  stack : Stack m.heap c handlers m.k
  top : (m.heap c).state ≠ .none → m.handlers = handlers

theorem Stack.popped {sp : Nat} (S : Stack heap c handlers k) (hsp : c ≤ sp) :
    Stack (popped heap c sp) c handlers k := (S.clobber hsp).modify le_rfl

theorem popContext_sound (L : Leavable m c handlers) {sp : Nat} (hsp : c < sp) :
    Sound (m.popContext c sp) := by
  have S : Stack (popped m.heap c sp) c (m.heap c).up m.k := by
    rw [L.up]
    exact L.stack.popped hsp.le
  by_cases hactive : (m.heap c).state = .active
  · cases hexn : (m.heap c).exn with
    | none =>
        simpa [popContext, Sound, Machine.modify, Machine.clobber, hactive, hexn] using ⟨c, _, S⟩
    | some e =>
        simpa [popContext, Sound, Machine.modify, Machine.clobber, hactive, hexn] using ⟨c, S⟩
  · simpa [popContext, Sound, Machine.modify, Machine.clobber, hactive] using ⟨c, S⟩

theorem endTry_sound (L : Leavable m c handlers) {sp : Nat} (hsp : c < sp) :
    Sound (m.endTry c sp) := by
  have hstay : (m.heap c).state ≠ .none → Stack m.heap c m.handlers m.k := by
    intro hstate
    rw [L.top hstate]
    exact L.stack
  unfold endTry
  cases hstate : (m.heap c).state with
  | none => exact popContext_sound L hsp
  | active =>
      cases hwalk : walkDown m.heap (m.deep + 1) c (m.heap c).down with
      | none => exact ⟨c, m.k, hstay (by rw [hstate]; exact XcpState.noConfusion)⟩
      | some base => exact popContext_sound L (Nat.lt_succ_of_le (le_walkDown hwalk))
  | handled => exact ⟨c, hstay (by rw [hstate]; exact XcpState.noConfusion)⟩
  | popped => exact ⟨c, hstay (by rw [hstate]; exact XcpState.noConfusion)⟩

theorem leave_sound (L : Leavable m c handlers) {catches : Catches} {fin : Option Stmt}
    (hcl : Clauses sc c catches fin) : Sound (m.leave c fin sc) := by
  cases fin with
  | none => exact endTry_sound L hcl.lt
  | some g =>
      have hroom : sc.Room (c + 1) g := hcl.final g rfl
      by_cases hnone : (m.heap c).state = .none
      · have heq : m.leave c (some g) sc = { m with
            heap := popped m.heap c sc.sp, handlers := handlers,
            control := .run g { sc with lex := some c }, k := .finally_ c sc :: m.k } := by
          simp [leave, popContext, Machine.modify, Machine.clobber, popped, hnone, L.up]
        have hc : popped m.heap c sc.sp c = { m.heap c with state := .popped } :=
          popped_self hcl.lt
        rw [heq]
        have S := L.stack.popped hcl.lt.le
        refine ⟨c + 1, hroom, .finally_ (Nat.lt_succ_self c) hcl.lt ?_ ?_ S⟩
        · show (popped m.heap c sc.sp c).state ≠ .none
          rw [hc]
          exact XcpState.noConfusion
        · show (popped m.heap c sc.sp c).up = handlers
          rw [hc]
          exact L.up
      · have S : Stack m.heap (c + 1) m.handlers (.finally_ c sc :: m.k) := by
          rw [L.top hnone]
          exact .finally_ (Nat.lt_succ_self c) hcl.lt hnone L.up L.stack
        simp only [leave, if_neg hnone]
        split
        · exact ⟨c + 1, hroom, S.setDown _⟩
        · exact ⟨c + 1, hroom, S⟩

theorem internalRaise_sound {initial : Bool} {e : Exn}
    (S : Stack m.heap n m.handlers m.k) : Sound (m.internalRaise initial e) := by
  cases hh : m.handlers with
  | none =>
      have heq : m.internalRaise initial e = { m with control := .halted (.unhandled e) } := by
        simp [internalRaise, findContext, hh]
      rw [heq]
      exact ⟨n, m.k, S⟩
  | some c =>
      rw [hh] at S
      obtain ⟨-, hcl, hstate, -, S'⟩ := S.top
      rw [internalRaise_top hh hstate]
      refine ⟨?_, ?_, ?_, ?_⟩
      · simpa [Machine.modify] using hcl
      · simp [Machine.modify]
      · simp [Machine.modify]
      · simpa [Machine.modify] using S'.modify le_rfl

/-- **Every step keeps the shape of the stack and its chain.** -/
theorem step_sound (h : Sound m) (hstep : step procs m = some m') : Sound m' := by
  obtain ⟨control, k, handlers, heap, deep, trace⟩ := m
  cases control with
  | halted r => cases hstep
  | raising initial e =>
      obtain ⟨n, S⟩ := h
      cases hstep
      exact internalRaise_sound S
  -- a context that was jumped to: its clauses, or out of the block
  | jumped c =>
      obtain ⟨hcl, hactive, hup, S⟩ := h
      cases hstep
      dsimp only at hcl ⊢
      split
      · next h hmatch =>
        obtain ⟨name, -, hmatch⟩ := Option.bind_eq_some_iff.mp hmatch
        refine ⟨c + 1, hcl.clause name h hmatch, .clause (Nat.lt_succ_self c)
          ⟨hcl.lt, fun _ _ h => (nomatch h), hcl.final⟩ ?_ ?_ (S.modify le_rfl)⟩
        · simp [Machine.modify]
        · simpa [Machine.modify] using hup
      · have L : Leavable ⟨.jumped c, (heap c).jmp.k, handlers, heap, deep, trace⟩ c handlers :=
          ⟨hup, S, fun _ => rfl⟩
        exact leave_sound L hcl
  -- what is returned to is on top of the stack
  | ret =>
      obtain ⟨n, S⟩ := h
      cases hstep
      cases S with
      | nil => exact ⟨n, [], .nil⟩
      | seq _ hroom S => exact ⟨_, hroom, S⟩
      | @body _ c up k _ _ _ _ hcl hstate _ hup S =>
          have L : Leavable ⟨.ret, k, some c, heap, deep, trace⟩ c up :=
            ⟨hup, S, fun hne => absurd hstate hne⟩
          exact leave_sound L hcl
      | @clause _ c _ k _ _ _ hcl _ hup S =>
          have L : Leavable ⟨.ret, k, handlers, heap, deep, trace⟩ c handlers :=
            ⟨hup, S, fun _ => rfl⟩
          exact leave_sound L hcl
      | @finally_ _ c _ k _ _ hsp _ hup S =>
          have L : Leavable ⟨.ret, k, handlers, heap, deep, trace⟩ c handlers :=
            ⟨hup, S, fun _ => rfl⟩
          exact endTry_sound L hsp
  | run s sc =>
      obtain ⟨n, hroom, S⟩ := h
      have hsp := hroom.le
      cases hstep
      cases s with
      | skip => exact ⟨n, S⟩
      | act a => exact ⟨n, S⟩
      | seq s t => exact ⟨n, hroom.seq.1, .seq le_rfl hroom.seq.2 S⟩
      | raise e => exact ⟨n, S.clobber hsp⟩
      | reraise =>
          dsimp only
          split
          · exact ⟨n, S.clobber hsp⟩
          · exact ⟨n, k, S⟩
      | call p => exact ⟨sc.sp, .proc (procs p) sc.sp, (S.clobber hsp).mono hsp⟩
      -- a new context goes on top, above all handlers
      | try_ slot body catches fin =>
          obtain ⟨hn, hbody, hcl⟩ := hroom.try_
          have hlt : ∀ p, handlers = some p → p < sc.base + slot := fun p hp =>
            lt_of_lt_of_le (S.handlers_lt p hp) hn
          obtain ⟨heap', hpush, hkept, hnew, -⟩ := try_step procs
            (m := ⟨.run (.try_ slot body catches fin) sc, k, handlers, heap, deep, trace⟩) rfl
            hcl.lt hlt
          rw [step] at hpush
          rw [Option.some.inj hpush]
          have hstate : (heap' (sc.base + slot)).state = .none := by rw [hnew]
          have hjmp : (heap' (sc.base + slot)).jmp = ⟨catches, fin, k, sc⟩ := by rw [hnew]
          have hup : (heap' (sc.base + slot)).up = handlers := by rw [hnew]
          exact ⟨_, hbody, .body (Nat.lt_succ_self _) hcl hstate hjmp hup ((S.mono hn).kept hkept)⟩

/-- The shape holds in every configuration of a run. -/
theorem sound_of_reaches {main : Proc} (h : Reaches (step procs) (init main) m) : Sound m :=
  Reaches.induction (fun _ _ => step_sound) h ⟨0, .proc main 0, .nil⟩

/-- The 'can't happen' loop of `internal_raise` does not turn. -/
theorem Sound.findContext (h : Sound m) :
    Machine.findContext m.heap (m.deep + 1) m.handlers = m.handlers := by
  obtain ⟨n, k, S⟩ := h.exists_stack
  cases hh : m.handlers with
  | none => rfl
  | some c =>
      rw [hh] at S
      rw [Machine.findContext, if_pos S.top.2.2.1]

/-! ## §3. Where `down` pointers lead. -/

/-- Every `down` pointer leads to a deeper block, and all blocks are above `deep`. -/
def Rising (heap : Nat → Context) (deep : Nat) : Prop :=
  ∀ a b, (heap a).down = .ctx b → a < b ∧ b < deep

namespace Rising

theorem mono (h : Rising heap n) (hn : n ≤ n') : Rising heap n' := fun a b hab =>
  ⟨(h a b hab).1, lt_of_lt_of_le (h a b hab).2 hn⟩

theorem clobber (h : Rising heap n) (sp : Nat) : Rising (clobber heap sp) n := by
  intro a b hab
  unfold Exceptions.clobber at hab
  split at hab
  · exact h a b hab
  · cases hab

theorem update (h : Rising heap n) {ctx : Context}
    (hctx : ∀ b, ctx.down = .ctx b → c < b ∧ b < n) : Rising (Function.update heap c ctx) n := by
  intro a b hab
  by_cases ha : a = c
  · rw [ha, Function.update_self] at hab
    rw [ha]
    exact hctx b hab
  · rw [Function.update_of_ne ha] at hab
    exact h a b hab

/-- A change of a block that keeps its `down` pointer, or cuts it. -/
theorem modify (h : Rising heap n) {ctx : Context}
    (hctx : ctx.down = (heap c).down ∨ ctx.down = .null) :
    Rising (Function.update heap c ctx) n := by
  refine h.update fun b hb => ?_
  rcases hctx with hctx | hctx
  · exact h c b (hctx ▸ hb)
  · rw [hctx] at hb
    cases hb

theorem popContext (h : Rising m.heap m.deep) (c sp : Nat) :
    Rising (m.popContext c sp).heap (m.popContext c sp).deep := by
  have hpopped : Rising (popped m.heap c sp) m.deep := (h.clobber sp).modify (.inl rfl)
  unfold Machine.popContext
  simp only
  split
  · split
    · exact hpopped
    · exact hpopped
  · exact hpopped

theorem endTry (h : Rising m.heap m.deep) (c sp : Nat) :
    Rising (m.endTry c sp).heap (m.endTry c sp).deep := by
  unfold Machine.endTry
  split
  · split
    · exact h
    · exact h.popContext c _
  · exact h.popContext c sp
  · exact h
  · exact h

theorem leave (h : Rising m.heap m.deep) (c : Nat) (fin : Option Stmt) (sc : Scope) :
    Rising (m.leave c fin sc).heap (m.leave c fin sc).deep := by
  cases fin with
  | none => exact h.endTry c sc.sp
  | some g =>
      have h₁ : Rising (if (m.heap c).state = .none then m.popContext c sc.sp else m).heap
          (if (m.heap c).state = .none then m.popContext c sc.sp else m).deep := by
        split
        · exact h.popContext c sc.sp
        · exact h
      unfold Machine.leave
      simp only
      split
      · exact h₁.modify (.inr rfl)
      · exact h₁

theorem internalRaise (h : Rising m.heap m.deep) (initial : Bool) (e : Exn) :
    Rising (m.internalRaise initial e).heap (m.internalRaise initial e).deep := by
  unfold Machine.internalRaise
  split
  · exact h
  · refine h.modify ?_
    cases initial with
    | true => exact .inr rfl
    | false => exact .inl rfl

theorem pushContext (h : Rising m.heap m.deep) (hlt : ∀ p, m.handlers = some p → p < c)
    (jmp : JmpBuf) : Rising (m.pushContext c jmp).heap (m.pushContext c jmp).deep := by
  obtain ⟨ctx, hctx⟩ : ∃ ctx : Context, ctx = ⟨jmp, m.handlers, .mark, .none, none, 0⟩ := ⟨_, rfl⟩
  have h₁ : Rising (Function.update m.heap c ctx) (max m.deep (c + 1)) := by
    refine (h.mono (le_max_left _ _)).update fun b hb => ?_
    rw [hctx] at hb
    cases hb
  unfold Machine.pushContext
  rw [← hctx]
  cases hh : m.handlers with
  | none => exact h₁
  | some p =>
      simp only
      split
      · exact h₁
      · refine h₁.update fun b hb => ?_
        cases hb
        exact ⟨hlt p hh, lt_of_lt_of_le (Nat.lt_succ_self c) (le_max_right _ _)⟩

end Rising

/-- **Every step leaves `down` pointers that lead to deeper blocks.** -/
theorem step_rising (hsound : Sound m) (h : Rising m.heap m.deep)
    (hstep : step procs m = some m') : Rising m'.heap m'.deep := by
  obtain ⟨control, k, handlers, heap, deep, trace⟩ := m
  have hstack : ∀ k, Rising (Machine.mk control k handlers heap deep trace).heap
      (Machine.mk control k handlers heap deep trace).deep := fun _ => h
  cases control with
  | halted r => cases hstep
  | raising initial e =>
      cases hstep
      exact h.internalRaise initial e
  | jumped c =>
      cases hstep
      dsimp only
      split
      · exact h.modify (.inl rfl)
      · exact (hstack _).leave c _ _
  | ret =>
      cases hstep
      cases k with
      | nil => exact h
      | cons frame k =>
          cases frame with
          | seq t sc => exact h
          | body c catches fin sc => exact (hstack k).leave c fin sc
          | clause c fin sc => exact (hstack k).leave c fin sc
          | finally_ c sc => exact (hstack k).endTry c sc.sp
  | run s sc =>
      cases hstep
      cases s with
      | skip => exact h
      | act a => exact h
      | seq s t => exact h
      | raise e => exact h.clobber sc.sp
      | reraise =>
          dsimp only
          split
          · exact h.clobber sc.sp
          · exact h
      | call p => exact h.clobber sc.sp
      | try_ slot body catches fin =>
          obtain ⟨n, hroom, S⟩ := hsound
          have hlt : ∀ p, handlers = some p → p < sc.base + slot := fun p hp =>
            lt_of_lt_of_le (S.handlers_lt p hp) hroom.try_.1
          exact Rising.pushContext
            (m := ⟨_, k, handlers, clobber heap sc.sp, deep, trace⟩) (h.clobber sc.sp) hlt _

theorem rising_of_reaches {main : Proc} (h : Reaches (step procs) (init main) m) :
    Rising m.heap m.deep := by
  have hboth : Sound m ∧ Rising m.heap m.deep :=
    Reaches.induction (P := fun m => Sound m ∧ Rising m.heap m.deep)
      (fun _ _ hm hstep => ⟨step_sound hm.1 hstep, step_rising hm.1 hm.2 hstep⟩) h
      ⟨⟨0, .proc main 0, .nil⟩, fun _ _ hab => by cases hab⟩
  exact hboth.2

/-- The `down` pointers lead to a null pointer, by whatever blocks. -/
inductive LeadsToNull (heap : Nat → Context) : Down → Prop
  | null : LeadsToNull heap .null
  | ctx {c : Nat} : LeadsToNull heap (heap c).down → LeadsToNull heap (.ctx c)

/-- Pointers that lead to null lead by deeper and deeper blocks. -/
theorem Rising.downChain (h : Rising heap n) {d : Down} (hlead : LeadsToNull heap d) {lo : Nat}
    (hlo : ∀ b, d = .ctx b → lo < b ∧ b < n) : DownChain heap n lo d := by
  induction hlead generalizing lo with
  | null => exact .null
  | @ctx c _ ih => exact .ctx (hlo c rfl).1 (hlo c rfl).2 (ih fun b hb => h c b hb)

/-- A walk that comes to its end has come to null. -/
theorem leadsToNull_of_walkDown {fuel base : Nat} {d : Down}
    (h : (walkDown heap fuel base d).isSome) : LeadsToNull heap d := by
  induction fuel generalizing base d with
  | zero =>
      cases d with
      | null => exact .null
      | mark => cases h
      | wild => cases h
      | ctx c => cases h
  | succ fuel ih =>
      cases d with
      | null => exact .null
      | mark => cases h
      | wild => cases h
      | ctx c => exact .ctx (ih h)

end Metta.Exceptions
