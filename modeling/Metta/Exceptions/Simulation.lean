/-
  Metta.Exceptions.Simulation — the machine follows the structured meaning.

  A statement that the machine starts to run under some handlers ends as its
  meaning says: back on the same stack with the same handlers, or in a raise
  with the same handlers.  On the way it changes no context block that lies
  before its own, apart from the `down` pointer of the innermost handler.

  The `down` pointers of blocks that were left lead to an end as long as nothing
  is put over these blocks.  OS_ENDTRY follows them at once, but for the TRYs
  with a FINALLY clause, which runs before; where that makes calls, what they
  come to then is an assumption here.

    • `Room` — the blocks of a statement in a stack frame,
    • `Kept` — that frame condition, `DownChain` — where `down` leads,
    • `Walks`, `Safe` — the assumption on what FINALLY clauses leave,
    • `plain_run` — those that make no calls leave everything,
    • `leave_does` — FINALLY and ENDTRY, `clauses_does` — after the jump,
    • `run_does` — every statement, by induction on the fuel; without enough
      fuel the machine runs on for as many steps.
-/
import Metta.Exceptions.Structured

namespace Metta.Exceptions

open Metta.Machine Machine

/-! ## §1. Stack frames. -/

/-- The blocks of the statement lie from the depth `n` on in the stack frame of `sc`. -/
def Scope.Room (sc : Scope) (n : Nat) (s : Stmt) : Prop :=
  ∃ lo, n = sc.base + lo ∧ lo ≤ sc.frame ∧ s.Fits sc.frame lo

/-- The block `c` of a TRY lies in the stack frame, and those of its clauses behind it. -/
structure Clauses (sc : Scope) (c : Nat) (catches : Catches) (fin : Option Stmt) : Prop where
  lt : c < sc.sp
  clause : ∀ name h, matching name catches = some h → sc.Room (c + 1) h
  final : ∀ f, fin = some f → sc.Room (c + 1) f

theorem mem_of_matching {name : String} {catches : Catches} {h : Stmt}
    (hmatch : matching name catches = some h) : ∃ name', (name', h) ∈ catches := by
  induction catches with
  | nil => cases hmatch
  | cons clause rest ih =>
      obtain ⟨name', h'⟩ := clause
      cases name' with
      | none =>
          cases hmatch
          exact ⟨none, List.mem_cons_self⟩
      | some e =>
          rw [matching] at hmatch
          split at hmatch
          · cases hmatch
            exact ⟨some e, List.mem_cons_self⟩
          · obtain ⟨name'', hmem⟩ := ih hmatch
            exact ⟨name'', List.mem_cons_of_mem _ hmem⟩

namespace Scope.Room

variable {sc : Scope} {n : Nat}

theorem le {s : Stmt} (h : sc.Room n s) : n ≤ sc.sp := by
  obtain ⟨lo, rfl, hlo, -⟩ := h
  exact Nat.add_le_add_left hlo _

theorem seq {s t : Stmt} (h : sc.Room n (.seq s t)) : sc.Room n s ∧ sc.Room n t := by
  obtain ⟨lo, hn, hlo, hfits⟩ := h
  cases hfits with
  | seq hs ht => exact ⟨⟨lo, hn, hlo, hs⟩, ⟨lo, hn, hlo, ht⟩⟩

theorem try_ {slot : Nat} {body : Stmt} {catches : Catches} {fin : Option Stmt}
    (h : sc.Room n (.try_ slot body catches fin)) :
    n ≤ sc.base + slot ∧ sc.Room (sc.base + slot + 1) body ∧
      Clauses sc (sc.base + slot) catches fin := by
  obtain ⟨lo, rfl, -, hfits⟩ := h
  cases hfits with
  | try_ hlo hslot hbody hcatches hfin =>
      refine ⟨Nat.add_le_add_left hlo _, ⟨slot + 1, rfl, hslot, hbody⟩,
        Nat.add_lt_add_left hslot _, fun name h hmatch => ?_, fun f hf => ?_⟩
      · obtain ⟨name', hmem⟩ := mem_of_matching hmatch
        exact ⟨slot + 1, rfl, hslot, hcatches name' h hmem⟩
      · exact ⟨slot + 1, rfl, hslot, hfin f hf⟩

/-- A procedure has its whole stack frame. -/
theorem proc (p : Proc) (sp : Nat) : Room ⟨sp, p.frame, none⟩ sp p.body :=
  ⟨0, rfl, Nat.zero_le _, p.fits⟩

end Scope.Room

/-! ## §2. What a statement leaves alone. -/

/-- Blocks below `n` are unchanged; of the innermost handler the `down` pointer may
change, and not from null. -/
structure Kept (n : Nat) (handlers : Option Nat) (heap heap' : Nat → Context) : Prop where
  other : ∀ c < n, handlers ≠ some c → heap' c = heap c
  top : ∀ p < n, handlers = some p → heap' p = { heap p with down := (heap' p).down } ∧
    ((heap p).down = .null → (heap' p).down = .null)

namespace Kept

variable {n n' : Nat} {handlers : Option Nat} {heap heap' heap'' : Nat → Context}

theorem refl : Kept n handlers heap heap := ⟨fun _ _ _ => rfl, fun _ _ _ => ⟨rfl, id⟩⟩

theorem trans (h : Kept n handlers heap heap') (h' : Kept n handlers heap' heap'') :
    Kept n handlers heap heap'' where
  other c hc hne := (h'.other c hc hne).trans (h.other c hc hne)
  top p hp htop := by
    obtain ⟨h1, h2⟩ := h.top p hp htop
    obtain ⟨h1', h2'⟩ := h'.top p hp htop
    refine ⟨?_, fun hnull => h2' (h2 hnull)⟩
    rw [h1', h1]

theorem mono (h : Kept n' handlers heap heap') (hn : n ≤ n') : Kept n handlers heap heap' where
  other c hc := h.other c (lt_of_lt_of_le hc hn)
  top p hp := h.top p (lt_of_lt_of_le hp hn)

/-- What runs under the handler `c` changes nothing below `c`. -/
theorem under {c : Nat} (h : Kept n' (some c) heap heap') (hc : n ≤ c) (hn : n ≤ n') :
    Kept n handlers heap heap' := by
  have hsame : ∀ i < n, heap' i = heap i := by
    intro i hi
    refine h.other i (lt_of_lt_of_le hi hn) fun h' => ?_
    cases h'
    omega
  exact ⟨fun i hi _ => hsame i hi, fun p hp _ => by rw [hsame p hp]; exact ⟨rfl, id⟩⟩

/-- A change of the block `c`. -/
theorem modify {c : Nat} {ctx : Context} (hc : n ≤ c) :
    Kept n handlers heap (Function.update heap c ctx) := by
  have hsame : ∀ i < n, Function.update heap c ctx i = heap i := fun i hi =>
    Function.update_of_ne (by omega) ..
  exact ⟨fun i hi _ => hsame i hi, fun p hp _ => by rw [hsame p hp]; exact ⟨rfl, id⟩⟩

/-- A call from `sp` on. -/
theorem clobber {sp : Nat} (hsp : n ≤ sp) : Kept n handlers heap (clobber heap sp) := by
  have hsame : ∀ i < n, Exceptions.clobber heap sp i = heap i := fun i hi =>
    if_pos (lt_of_lt_of_le hi hsp)
  exact ⟨fun i hi _ => hsame i hi, fun p hp _ => by rw [hsame p hp]; exact ⟨rfl, id⟩⟩

/-- The exception of a block stays. -/
theorem exn (h : Kept n handlers heap heap') {c : Nat} (hc : c < n) :
    (heap' c).exn = (heap c).exn := by
  by_cases htop : handlers = some c
  · rw [(h.top c hc htop).1]
    rfl
  · rw [h.other c hc htop]

end Kept

/-- The `down` pointers lead from a block to deeper ones, and to an end. -/
inductive DownChain (heap : Nat → Context) (n : Nat) : Nat → Down → Prop
  | null {lo : Nat} : DownChain heap n lo .null
  | ctx {lo c : Nat} : lo < c → c < n → DownChain heap n c (heap c).down →
      DownChain heap n lo (.ctx c)

theorem DownChain.congr {heap heap' : Nat → Context} {n n' lo : Nat} {d : Down}
    (h : DownChain heap n lo d) (hn : n ≤ n')
    (hsame : ∀ c, lo < c → c < n → (heap' c).down = (heap c).down) :
    DownChain heap' n' lo d := by
  induction h with
  | null => exact .null
  | @ctx lo c hlo hc _ ih =>
      refine .ctx hlo (lt_of_lt_of_le hc hn) ?_
      rw [hsame c hlo hc]
      exact ih fun i hi hi' => hsame i (by omega) hi'

/-- The walk comes to the end of the chain, and has the deepest block then. -/
theorem DownChain.walkDown {heap : Nat → Context} {n lo : Nat} {d : Down}
    (h : DownChain heap n lo d) : ∀ fuel, n ≤ lo + fuel →
      ∃ base, walkDown heap fuel lo d = some base ∧ lo ≤ base ∧
        DownChain heap (min (base + 1) n) lo d := by
  induction h with
  | @null lo =>
      intro fuel _
      refine ⟨lo, ?_, le_rfl, .null⟩
      cases fuel <;> rfl
  | @ctx lo c hlo hc _ ih =>
      intro fuel hfuel
      obtain ⟨fuel, rfl⟩ : ∃ m, fuel = m + 1 := ⟨fuel - 1, by omega⟩
      obtain ⟨base, hwalk, hle, hchain⟩ := ih fuel (by omega)
      refine ⟨base, ?_, by omega, .ctx hlo (by omega) hchain⟩
      rw [Machine.walkDown, max_eq_right hlo.le]
      exact hwalk

/-- The walk does not go back. -/
theorem le_walkDown {heap : Nat → Context} {fuel base base' : Nat} {d : Down}
    (h : walkDown heap fuel base d = some base') : base ≤ base' := by
  induction fuel generalizing base d with
  | zero =>
      cases d with
      | null => cases h; exact le_rfl
      | mark => cases h
      | wild => cases h
      | ctx c => cases h
  | succ fuel ih =>
      cases d with
      | null => cases h; exact le_rfl
      | mark => cases h
      | wild => cases h
      | ctx c => exact (le_max_left _ _).trans (ih h)

/-! ## §3. Ends of statements. -/

variable {procs : Nat → Proc}

/-- From `m` the machine makes the actions `t` and comes to the end that `o` tells:
on the stack `k`, or in a raise, with the given handlers. -/
def Ends (procs : Nat → Proc) (m : Machine) (n : Nat) (handlers : Option Nat) (k : List Frame)
    (t : List Nat) (o : Outcome) : Prop :=
  ∃ m', Reaches (step procs) m m' ∧ m'.trace = m.trace ++ t ∧
    match o with
    | .undefined => m'.control = .halted .undefined
    | .normal =>
        m'.control = .ret ∧ m'.k = k ∧ m'.handlers = handlers ∧ m.deep ≤ m'.deep ∧
          Kept n handlers m.heap m'.heap
    | .raised e =>
        ∃ initial, m'.control = .raising initial e ∧ m'.handlers = handlers ∧
          m.deep ≤ m'.deep ∧ Kept n handlers m.heap m'.heap ∧
          (initial = false → ∀ p, handlers = some p →
            DownChain m'.heap m'.deep p (m'.heap p).down)

/-- What the machine does from `m`, where `r` is the meaning with some fuel: it ends
as `r` tells, or it makes `f` steps. -/
def Does (procs : Nat → Proc) (f : Nat) (m : Machine) (n : Nat) (handlers : Option Nat)
    (k : List Frame) : Option (List Nat × Outcome) → Prop
  | some r => Ends procs m n handlers k r.1 r.2
  | none => (runFor (step procs) f m).isSome

/-- The statement makes no calls: there is nothing in it but actions. -/
def Stmt.plain : Stmt → Bool
  | .skip => true
  | .act _ => true
  | .seq s t => s.plain && t.plain
  | .raise _ => false
  | .reraise => false
  | .call _ => false
  | .try_ .. => false

/-- OS_ENDTRY behind a FINALLY clause that makes calls and is left with an exception comes to the
end of its walk: what the `down` pointer leads to was not overwritten, or leads to an end all the
same. -/
def Walks (m : Machine) : Prop :=
  ∀ c sc k f, m.control = .ret → m.k = .finally_ c sc :: k → (m.heap c).state = .active →
    (m.heap c).jmp.finally_ = some f → f.plain = false →
    DownChain m.heap m.deep c (m.heap c).down

/-- All walks behind FINALLY clauses come to their ends from `m` on. -/
def Safe (procs : Nat → Proc) (m : Machine) : Prop :=
  ∀ m', Reaches (step procs) m m' → Walks m'

theorem Safe.reached {m m₁ : Machine} (h : Safe procs m) (hreach : Reaches (step procs) m m₁) :
    Safe procs m₁ := fun m' hreach' => h m' (hreach.trans hreach')

theorem Safe.step {m m₁ : Machine} (h : Safe procs m) (hstep : Machine.step procs m = some m₁) :
    Safe procs m₁ := h.reached (.head hstep (.refl _))

variable {m m₁ : Machine} {n n' f : Nat} {handlers : Option Nat} {k : List Frame}

theorem Ends.mono {t : List Nat} {o : Outcome} (h : Ends procs m n' handlers k t o)
    (hn : n ≤ n') : Ends procs m n handlers k t o := by
  obtain ⟨m', hreach, htrace, hend⟩ := h
  refine ⟨m', hreach, htrace, ?_⟩
  cases o with
  | undefined => exact hend
  | normal =>
      obtain ⟨h1, h2, h3, h4, h5⟩ := hend
      exact ⟨h1, h2, h3, h4, h5.mono hn⟩
  | raised e =>
      obtain ⟨initial, h1, h2, h3, h4, h5⟩ := hend
      exact ⟨initial, h1, h2, h3, h4.mono hn, h5⟩

/-- A run before the one that ends. -/
theorem Ends.head {t t₁ : List Nat} {o : Outcome} (hreach : Reaches (step procs) m m₁)
    (htrace : m₁.trace = m.trace ++ t₁) (hdeep : m.deep ≤ m₁.deep)
    (hkept : Kept n handlers m.heap m₁.heap) (h : Ends procs m₁ n handlers k t o) :
    Ends procs m n handlers k (t₁ ++ t) o := by
  obtain ⟨m', hreach', htrace', hend⟩ := h
  refine ⟨m', hreach.trans hreach', by rw [htrace', htrace, List.append_assoc], ?_⟩
  cases o with
  | undefined => exact hend
  | normal =>
      obtain ⟨h1, h2, h3, h4, h5⟩ := hend
      exact ⟨h1, h2, h3, le_trans hdeep h4, hkept.trans h5⟩
  | raised e =>
      obtain ⟨initial, h1, h2, h3, h4, h5⟩ := hend
      exact ⟨initial, h1, h2, le_trans hdeep h3, hkept.trans h4, h5⟩

theorem Does.mono {r : Option (List Nat × Outcome)} (h : Does procs f m n' handlers k r)
    (hn : n ≤ n') : Does procs f m n handlers k r := by
  cases r with
  | none => exact h
  | some r => exact Ends.mono h hn

theorem Does.head {t₁ : List Nat} {r : Option (List Nat × Outcome)}
    (hreach : Reaches (step procs) m m₁) (htrace : m₁.trace = m.trace ++ t₁)
    (hdeep : m.deep ≤ m₁.deep) (hkept : Kept n handlers m.heap m₁.heap)
    (h : Does procs f m₁ n handlers k r) :
    Does procs f m n handlers k (r.map fun r => (t₁ ++ r.1, r.2)) := by
  cases r with
  | some r => exact Ends.head hreach htrace hdeep hkept h
  | none =>
      obtain ⟨j, hj⟩ := hreach
      have hlong : (runFor (step procs) (j + f) m).isSome := by
        rw [runFor_add, hj]
        exact h
      exact runFor_of_le (by omega) hlong

/-- One step before; it counts when the fuel runs out. -/
theorem Does.step {r : Option (List Nat × Outcome)} (hstep : step procs m = some m₁)
    (htrace : m₁.trace = m.trace) (hdeep : m.deep ≤ m₁.deep)
    (hkept : Kept n handlers m.heap m₁.heap) (h : Does procs f m₁ n handlers k r) :
    Does procs (f + 1) m n handlers k r := by
  cases r with
  | some r =>
      have hsame : m₁.trace = m.trace ++ [] := by rw [htrace, List.append_nil]
      exact Ends.head (.head hstep (.refl _)) hsame hdeep hkept h
  | none =>
      rw [Does, runFor, hstep]
      exact h

theorem Does.after {r : Option (List Nat × Outcome)} (hstep : Machine.step procs m = some m₁)
    (htrace : m₁.trace = m.trace) (hdeep : m.deep ≤ m₁.deep)
    (hkept : Kept n handlers m.heap m₁.heap) (h : Does procs f m₁ n handlers k r) :
    Does procs f m n handlers k r := by
  have h' := h.step hstep htrace hdeep hkept
  cases r with
  | some r => exact h'
  | none => exact runFor_of_le (Nat.le_succ f) h'

/-- What comes after a statement: it goes on after a normal end and after a raise. -/
theorem Does.bind {r : Option (List Nat × Outcome)}
    {g : List Nat × Outcome → Option (List Nat × Outcome)} {handlers' : Option Nat}
    {k' : List Frame} (h : Does procs f m n' handlers' k' r)
    (hstop : ∀ t, g (t, .undefined) = some (t, .undefined))
    (hnormal : ∀ t, Ends procs m n' handlers' k' t .normal →
      Does procs f m n handlers k (g (t, .normal)))
    (hraised : ∀ t e, Ends procs m n' handlers' k' t (.raised e) →
      Does procs f m n handlers k (g (t, .raised e))) :
    Does procs f m n handlers k (r.bind g) := by
  cases r with
  | none => exact h
  | some r =>
      obtain ⟨t, o⟩ := r
      rw [Option.bind_some]
      cases o with
      | normal => exact hnormal t h
      | raised e => exact hraised t e h
      | undefined =>
          rw [hstop]
          exact h

/-! ## §4. The end of a TRY. -/

/-- The block `c` of a TRY that was entered under `handlers`, holding `cur`. -/
structure Block (m : Machine) (c : Nat) (handlers : Option Nat) (cur : Option Exn)
    (fin : Option Stmt) : Prop where
  lt : c < m.deep
  final : (m.heap c).jmp.finally_ = fin
  up : (m.heap c).up = handlers
  below : ∀ p, handlers = some p → p < c
  exn : (m.heap c).exn = cur

/-- The state of the block when its TRY is left with outcome `o`.  With an exception the walk of
OS_ENDTRY comes to its end, and that of the handler goes by this block first. -/
def Leaving (m : Machine) (c : Nat) (handlers : Option Nat) : Outcome → Prop
  | .normal =>
      (m.heap c).state = .none ∨
        (((m.heap c).state = .handled ∨ (m.heap c).state = .popped) ∧ m.handlers = handlers)
  | .raised e =>
      (m.heap c).state = .active ∧ m.handlers = handlers ∧ (m.heap c).exn = some e ∧
        DownChain m.heap m.deep c (m.heap c).down ∧
        ∀ p, handlers = some p → (m.heap p).down = .null ∨ (m.heap p).down = .ctx c
  | .undefined => False

variable {c : Nat} {cur : Option Exn} {o : Outcome} {sc : Scope} {fin : Option Stmt}

/-- Memory after `pop_context` of `c`, called with the stack pointer `sp`. -/
def popped (heap : Nat → Context) (c sp : Nat) : Nat → Context :=
  Function.update (clobber heap sp) c { clobber heap sp c with state := .popped }

theorem popped_self {heap : Nat → Context} {sp : Nat} (hsp : c < sp) :
    popped heap c sp c = { heap c with state := .popped } := by
  rw [popped, Function.update_self, clobber, if_pos hsp]

theorem popped_down {heap : Nat → Context} {i sp : Nat} (hi : i < sp) :
    (popped heap c sp i).down = (heap i).down := by
  by_cases hic : i = c
  · rw [hic, popped_self (hic ▸ hi)]
  · rw [popped, Function.update_of_ne hic, clobber, if_pos hi]

theorem Kept.popped {heap : Nat → Context} {sp : Nat} (hsp : c ≤ sp) :
    Kept c handlers heap (popped heap c sp) := (Kept.clobber hsp).trans (.modify le_rfl)

/-- **OS_ENDTRY** ends the TRY as it was left. -/
theorem endTry_ends (procs : Nat → Proc) (B : Block m c handlers cur fin)
    (L : Leaving m c handlers o) {sp : Nat} (hsp : c < sp) :
    (m.endTry c sp).trace = m.trace ∧ (m.endTry c sp).deep = m.deep ∧
      Kept c handlers m.heap (m.endTry c sp).heap ∧
      Ends procs (m.endTry c sp) c handlers m.k [] o := by
  cases o with
  | undefined => exact L.elim
  | normal =>
      rcases L with hnone | ⟨hstate, hhandlers⟩
      · have heq : m.endTry c sp = { m with
            heap := popped m.heap c sp, handlers := (m.heap c).up, control := .ret } := by
          simp [endTry, popContext, hnone, Machine.modify, Machine.clobber, popped]
        rw [heq]
        exact ⟨rfl, rfl, .popped hsp.le, _, .refl _, (List.append_nil _).symm, rfl, rfl, B.up,
          le_rfl, .refl⟩
      · have heq : m.endTry c sp = { m with control := .ret } := by
          rcases hstate with h | h <;> simp [endTry, h]
        rw [heq]
        exact ⟨rfl, rfl, .refl, _, .refl _, (List.append_nil _).symm, rfl, rfl, hhandlers, le_rfl,
          .refl⟩
  | raised e =>
      obtain ⟨hactive, hhandlers, hexn, hdown, htop⟩ := L
      obtain ⟨base, hwalk, hle, hchain⟩ := hdown.walkDown (m.deep + 1) (by omega)
      have heq : m.endTry c sp = { m with
          heap := popped m.heap c (base + 1), handlers := (m.heap c).up,
          control := .raising false e } := by
        simp [endTry, popContext, hactive, hwalk, hexn, Machine.modify, Machine.clobber, popped]
      rw [heq]
      refine ⟨rfl, rfl, .popped (by omega), _, .refl _, (List.append_nil _).symm, false, rfl, B.up,
        le_rfl, .refl, fun _ p hp => ?_⟩
      have hpc := B.below p hp
      -- the walk of the handler goes by no block that `pop_context` was put over
      show DownChain (popped m.heap c (base + 1)) m.deep p (popped m.heap c (base + 1) p).down
      rw [popped_down (by omega)]
      rcases htop p hp with h | h
      · rw [h]
        exact .null
      · rw [h]
        refine .ctx hpc B.lt ?_
        rw [popped_down (Nat.lt_succ_of_le hle)]
        exact hchain.congr (min_le_right _ _) fun i _ hi => popped_down (by omega)

/-- The meaning of every statement with fuel `f` is what the machine does. -/
def Simulated (procs : Nat → Proc) (f : Nat) : Prop :=
  ∀ (s : Stmt) (sc : Scope) (n : Nat) (m : Machine), m.control = .run s sc → sc.Room n s →
    Safe procs m → (∀ c, sc.lex = some c → c < n) → (∀ p, m.handlers = some p → p < n) →
    Does procs f m n m.handlers m.k
      (eval false procs f s (sc.lex.bind fun c => (m.heap c).exn))

/-- The state of the block when the FINALLY clause of its TRY is entered: the block is off the
chain, and the handler above it has its `down` cut when an exception goes on to it. -/
def Left (heap : Nat → Context) (c : Nat) (handlers : Option Nat) : Outcome → Prop
  | .normal => (heap c).state = .handled ∨ (heap c).state = .popped
  | .raised e => (heap c).state = .active ∧ (heap c).exn = some e ∧
      ∀ p, handlers = some p → (heap p).down = .null
  | .undefined => False

/-- **OS_FINALLY**. -/
theorem leave_some (B : Block m c handlers cur fin) (L : Leaving m c handlers o) (g : Stmt)
    (hsp : c < sc.sp) :
    ∃ heap', m.leave c (some g) sc = { m with
        heap := heap', handlers := handlers, control := .run g { sc with lex := some c },
        k := .finally_ c sc :: m.k } ∧
      Kept c handlers m.heap heap' ∧
      Block { m with heap := heap', handlers := handlers } c handlers cur fin ∧
      Left heap' c handlers o ∧
      ((heap' c).state = .active → DownChain heap' m.deep c (heap' c).down) := by
  cases o with
  | undefined => exact L.elim
  -- without an exception: the context is popped, or has been already
  | normal =>
      rcases L with hnone | ⟨hstate, hhandlers⟩
      · obtain ⟨heap', hheap⟩ : ∃ heap', heap' = popped m.heap c sc.sp := ⟨_, rfl⟩
        have hc : heap' c = { m.heap c with state := .popped } := hheap ▸ popped_self hsp
        refine ⟨heap', ?_, hheap ▸ .popped hsp.le, ⟨B.lt, ?_, ?_, B.below, ?_⟩, ?_, ?_⟩
        · rw [hheap]
          simp [leave, popContext, Machine.modify, Machine.clobber, hnone, B.up, popped]
        · show (heap' c).jmp.finally_ = fin
          rw [hc]
          exact B.final
        · show (heap' c).up = handlers
          rw [hc]
          exact B.up
        · show (heap' c).exn = cur
          rw [hc]
          exact B.exn
        · right
          rw [hc]
        · rw [hc]
          exact fun h => nomatch h
      · refine ⟨m.heap, ?_, .refl, ⟨B.lt, B.final, B.up, B.below, B.exn⟩, hstate, ?_⟩
        · rcases hstate with h | h <;> simp [leave, h, hhandlers]
        · rcases hstate with h | h <;> rw [h] <;> exact fun h' => nomatch h'
  -- an exception goes on: the list of the context above is cut
  | raised e =>
      obtain ⟨hactive, hhandlers, hexn, hdown, -⟩ := L
      cases handlers with
      | none =>
          refine ⟨m.heap, ?_, .refl, ⟨B.lt, B.final, B.up, B.below, B.exn⟩,
            ⟨hactive, hexn, fun p hp => nomatch hp⟩, fun _ => hdown⟩
          simp [leave, hactive, B.up, hhandlers]
      | some p =>
          have hpc := B.below p rfl
          let heap' := Function.update m.heap p { m.heap p with down := .null }
          have hp : heap' p = { m.heap p with down := .null } := Function.update_self ..
          have hcut : ∀ i, i ≠ p → heap' i = m.heap i := fun i hi => Function.update_of_ne hi ..
          have hc : heap' c = m.heap c := hcut c (by omega)
          refine ⟨heap', ?_, ⟨fun i _ hi => hcut i fun h => hi (by rw [h]), ?_⟩,
            ⟨B.lt, ?_, ?_, B.below, ?_⟩, ⟨?_, ?_, ?_⟩, fun _ => ?_⟩
          · simp [leave, Machine.modify, hactive, B.up, hhandlers, heap']
          · rintro q - ⟨⟩
            rw [hp]
            exact ⟨rfl, fun _ => rfl⟩
          · show (heap' c).jmp.finally_ = fin
            rw [hc]
            exact B.final
          · show (heap' c).up = some p
            rw [hc]
            exact B.up
          · show (heap' c).exn = cur
            rw [hc]
            exact B.exn
          · rw [hc]
            exact hactive
          · rw [hc]
            exact hexn
          · rintro q ⟨⟩
            rw [hp]
          · rw [hc]
            exact hdown.congr le_rfl fun i hi _ => by rw [hcut i (by omega)]

/-- What runs behind the block `c` changes neither it nor what it was left with. -/
theorem Left.kept {heap heap' : Nat → Context} (L : Left heap c handlers o)
    (hkept : Kept (c + 1) handlers heap heap') (hbelow : ∀ p, handlers = some p → p < c) :
    heap' c = heap c ∧ Left heap' c handlers o := by
  have hc : heap' c = heap c :=
    hkept.other c (Nat.lt_succ_self c) fun h => absurd (hbelow c h) (lt_irrefl c)
  refine ⟨hc, ?_⟩
  cases o with
  | undefined => exact L
  | normal =>
      unfold Left
      rw [hc]
      exact L
  | raised e =>
      obtain ⟨hactive, hexn, hcut⟩ := L
      refine ⟨by rw [hc, hactive], by rw [hc, hexn], fun p hp => ?_⟩
      exact (hkept.top p (Nat.lt_succ_of_lt (hbelow p hp)) hp).2 (hcut p hp)

/-- The TRY is left as it was, where the walk of OS_ENDTRY comes to its end. -/
theorem Left.leaving (L : Left m.heap c handlers o) (hhandlers : m.handlers = handlers)
    (hwalk : (m.heap c).state = .active → DownChain m.heap m.deep c (m.heap c).down) :
    Leaving m c handlers o := by
  cases o with
  | undefined => exact L
  | normal => exact .inr ⟨L, hhandlers⟩
  | raised e =>
      obtain ⟨hactive, hexn, hcut⟩ := L
      exact ⟨hactive, hhandlers, hexn, hwalk hactive, fun p hp => .inl (hcut p hp)⟩

/-- **A FINALLY clause that makes no calls** ends, and nothing but the trace changes. -/
theorem plain_run (procs : Nat → Proc) (g : Stmt) (hplain : g.plain = true) (m : Machine)
    {sc : Scope} (hcontrol : m.control = .run g sc) :
    ∃ t, Reaches (step procs) m { m with control := .ret, trace := m.trace ++ t } ∧
      ∀ f cur, eval false procs f g cur = none ∨ eval false procs f g cur = some (t, .normal) := by
  match g with
  | .skip =>
      have hstep : step procs m = some { m with control := .ret, trace := m.trace ++ [] } := by
        simp [step, hcontrol]
      refine ⟨[], .head hstep (.refl _), fun f cur => ?_⟩
      cases f with
      | zero => exact .inl rfl
      | succ f => exact .inr rfl
  | .act a =>
      have hstep : step procs m = some { m with control := .ret, trace := m.trace ++ [a] } := by
        simp [step, hcontrol]
      refine ⟨[a], .head hstep (.refl _), fun f cur => ?_⟩
      cases f with
      | zero => exact .inl rfl
      | succ f => exact .inr rfl
  | .seq s t =>
      obtain ⟨hs, ht⟩ := Bool.and_eq_true_iff.mp hplain
      let m₁ : Machine := { m with control := .run s sc, k := .seq t sc :: m.k }
      have hstep : step procs m = some m₁ := by simp [step, hcontrol, m₁]
      obtain ⟨t₁, hreach₁, heval₁⟩ := plain_run procs s hs m₁ rfl
      let m₂ : Machine := { m with control := .run t sc, trace := m.trace ++ t₁ }
      have hstep' : step procs { m₁ with control := .ret, trace := m₁.trace ++ t₁ } = some m₂ := by
        simp [step, m₁, m₂]
      obtain ⟨t₂, hreach₂, heval₂⟩ := plain_run procs t ht m₂ rfl
      refine ⟨t₁ ++ t₂, ?_, fun f cur => ?_⟩
      · have hreach := ((Reaches.head hstep hreach₁).tail hstep').trans hreach₂
        rw [← List.append_assoc]
        exact hreach
      · cases f with
        | zero => exact .inl rfl
        | succ f =>
            rw [eval]
            rcases heval₁ f cur with h | h
            · exact .inl (by rw [h]; rfl)
            · rcases heval₂ f cur with h' | h'
              · exact .inl (by rw [h, Option.bind_some, if_pos rfl, h']; rfl)
              · exact .inr (by rw [h, Option.bind_some, if_pos rfl, h']; rfl)

theorem evalFinally_append (ev : Stmt → Option Exn → Option (List Nat × Outcome))
    (fin : Option Stmt) (cur : Option Exn) (t : List Nat) (o : Outcome) :
    evalFinally ev fin cur t o = (evalFinally ev fin cur [] o).map fun r => (t ++ r.1, r.2) := by
  cases fin with
  | none => simp [evalFinally]
  | some g =>
      cases hg : ev g cur with
      | none => simp [evalFinally, hg]
      | some r => simp [evalFinally, hg]

/-- **The rest of a TRY after its body or a clause**: the FINALLY clause runs, and the
TRY ends as it was left. -/
theorem leave_does (hsim : Simulated procs f) (B : Block m c handlers cur fin)
    (L : Leaving m c handlers o) (hsp : c < sc.sp)
    (hroom : ∀ g, fin = some g → sc.Room (c + 1) g) (hsafe : Safe procs (m.leave c fin sc)) :
    (m.leave c fin sc).trace = m.trace ∧ m.deep ≤ (m.leave c fin sc).deep ∧
      Kept c handlers m.heap (m.leave c fin sc).heap ∧
      Does procs f (m.leave c fin sc) c handlers m.k
        (evalFinally (eval false procs f) fin cur [] o) := by
  cases fin with
  | none =>
      obtain ⟨h1, h2, h3, h4⟩ := endTry_ends procs B L hsp
      exact ⟨h1, h2.ge, h3, h4⟩
  | some g =>
      obtain ⟨heap', heq, hkept, B', hleft, hchain⟩ := leave_some B L g hsp
      let m₁ : Machine := { m with
        heap := heap', handlers := handlers, control := .run g { sc with lex := some c },
        k := .finally_ c sc :: m.k }
      rw [heq] at hsafe ⊢
      refine ⟨rfl, le_rfl, hkept, ?_⟩
      have hrun := hsim g { sc with lex := some c } (c + 1) m₁ rfl (hroom g rfl) hsafe
        (by rintro _ ⟨⟩; exact Nat.lt_succ_self _) (fun p hp => Nat.lt_succ_of_lt (B.below p hp))
      have hcur : ((some c).bind fun c => (heap' c).exn) = cur := B'.exn
      have hmeaning : evalFinally (eval false procs f) (some g) cur [] o
          = (eval false procs f g cur).bind fun r =>
              some (r.1, if r.2 = .normal then o else r.2) := by
        cases hg : eval false procs f g cur with
        | none => simp [evalFinally, hg]
        | some r => simp [evalFinally, hg]
      rw [hcur] at hrun
      rw [hmeaning]
      -- what the clause has left when it is at its end, OS_ENDTRY goes on from
      have hend : ∀ {m' : Machine} {t : List Nat}, Reaches (step procs) m₁ m' →
          m'.trace = m.trace ++ t → m'.control = .ret → m'.k = .finally_ c sc :: m.k →
          m'.handlers = handlers → m.deep ≤ m'.deep → Kept (c + 1) handlers heap' m'.heap →
          ((m'.heap c).state = .active → DownChain m'.heap m'.deep c (m'.heap c).down) →
          Ends procs m₁ c handlers m.k t o := by
        intro m' t hreach htrace hcontrol hk hhandlers hdeep hkept' hwalk
        obtain ⟨hc, hleft'⟩ := hleft.kept hkept' B.below
        have hB : Block { m' with k := m.k } c handlers cur (some g) :=
          ⟨lt_of_lt_of_le B.lt hdeep, by rw [hc]; exact B'.final, by rw [hc]; exact B'.up, B.below,
            by rw [hc]; exact B'.exn⟩
        have hL : Leaving { m' with k := m.k } c handlers o := hleft'.leaving hhandlers hwalk
        have hstep : step procs m' = some ({ m' with k := m.k }.endTry c sc.sp) := by
          simp [step, hcontrol, hk]
        obtain ⟨h1, h2, h3, h4⟩ := endTry_ends procs hB hL hsp
        have hend := Ends.head (hreach.tail hstep) (h1.trans htrace) (by rw [h2]; exact hdeep)
          ((hkept'.mono (Nat.le_succ c)).trans h3) h4
        rw [List.append_nil] at hend
        exact hend
      cases hplain : g.plain with
      | true =>
          obtain ⟨t, hreach, heval⟩ := plain_run procs g hplain m₁ rfl
          rcases heval f cur with h | h
          · rw [h] at hrun ⊢
            exact hrun
          · rw [h]
            exact hend hreach rfl rfl rfl rfl le_rfl .refl hchain
      | false =>
          refine hrun.bind (fun t => by simp) ?_ ?_
          · rintro t ⟨m', hreach, htrace, hcontrol, hk, hhandlers, hdeep, hkept'⟩
            obtain ⟨hc, -⟩ := hleft.kept hkept' B.below
            have hfinal : (m'.heap c).jmp.finally_ = some g := by
              rw [hc]
              exact B'.final
            -- the assumption tells that OS_ENDTRY comes to the end of its walk
            exact hend hreach htrace hcontrol hk hhandlers hdeep hkept' fun hactive =>
              hsafe m' hreach c sc m.k g hcontrol hk hactive hfinal hplain
          · intro t e hraised
            exact hraised.mono (Nat.le_succ c)

/-! ## §5. After the jump. -/

theorem evalClauses_append (ev : Stmt → Option Exn → Option (List Nat × Outcome))
    (catches : Catches) (fin : Option Stmt) (t : List Nat) (o : Outcome) :
    evalClauses false ev catches fin t o
      = (evalClauses false ev catches fin [] o).map fun r => (t ++ r.1, r.2) := by
  cases o with
  | undefined => simp [evalClauses]
  | normal => exact evalFinally_append ev fin none t .normal
  | raised e =>
      rw [evalClauses, evalClauses]
      cases matching e.name catches with
      | none => exact evalFinally_append ev fin (some e) t (.raised e)
      | some h =>
          cases hh : ev h (some e) with
          | none => simp [hh]
          | some r =>
              obtain ⟨t', o'⟩ := r
              cases o' with
              | normal =>
                  have h1 := evalFinally_append ev fin (some e) (t ++ t') .normal
                  have h2 := evalFinally_append ev fin (some e) t' .normal
                  simp [hh, h1, h2, Function.comp_def]
              | raised e' => simp [hh]
              | undefined => simp [hh]

/-- **The clauses of a TRY** that an exception was delivered to. -/
theorem clauses_does (hsim : Simulated procs f) {e : Exn} {catches : Catches}
    (hcontrol : m.control = .jumped c) (hjmp : (m.heap c).jmp = ⟨catches, fin, k, sc⟩)
    (hclauses : Clauses sc c catches fin) (hsafe : Safe procs m)
    (B : Block m c handlers (some e) fin) (L : Leaving m c handlers (.raised e)) :
    Does procs f m c handlers k
      (evalClauses false (eval false procs f) catches fin [] (.raised e)) := by
  have hname : (m.heap c).name = some e.name := by
    have hexn := B.exn
    rw [Context.exn, Option.map_eq_some_iff] at hexn
    obtain ⟨name, hname, rfl⟩ := hexn
    exact hname
  rw [evalClauses]
  cases hmatch : matching e.name catches with
  | none =>
      -- no clause matches: the exception stays active
      have hstep : step procs m = some ({ m with k := k }.leave c fin sc) := by
        simp [step, hcontrol, hname, hjmp, hmatch]
      have hB : Block { m with k := k } c handlers (some e) fin :=
        ⟨B.lt, B.final, B.up, B.below, B.exn⟩
      have hL : Leaving { m with k := k } c handlers (.raised e) := L
      obtain ⟨h1, h2, h3, h4⟩ :=
        leave_does hsim hB hL hclauses.lt hclauses.final (hsafe.step hstep)
      exact Does.after hstep h1 h2 h3 h4
  | some h =>
      let ctx : Context := { m.heap c with state := .handled }
      let m₁ : Machine := { m with
        heap := Function.update m.heap c ctx, control := .run h { sc with lex := some c },
        k := .clause c fin sc :: k }
      have hstep : step procs m = some m₁ := by
        simp [step, hcontrol, hname, hjmp, hmatch, Machine.modify, m₁, ctx]
      have hctx : m₁.heap c = ctx := Function.update_self ..
      have hcur : ((some c).bind fun c => (m₁.heap c).exn) = some e := by
        rw [Option.bind_some, hctx]
        exact B.exn
      have hhandlers₁ : m₁.handlers = handlers := L.2.1
      have hrun := hsim h { sc with lex := some c } (c + 1) m₁ rfl
        (hclauses.clause e.name h hmatch) (hsafe.step hstep)
        (by rintro _ ⟨⟩; exact Nat.lt_succ_self _) fun p hp =>
          Nat.lt_succ_of_lt (B.below p (hhandlers₁.symm.trans hp))
      rw [hcur, hhandlers₁] at hrun
      refine Does.after hstep rfl le_rfl (.modify le_rfl) (hrun.bind (fun t => rfl) ?_ ?_)
      · rintro t ⟨m', hreach, htrace, hcontrol', hk, hhandlers, hdeep, hkept⟩
        have hsame : m'.heap c = ctx := by
          rw [hkept.other c (Nat.lt_succ_self c) fun h => absurd (B.below c h) (lt_irrefl c), hctx]
        have hB : Block { m' with k := k } c handlers (some e) fin :=
          ⟨lt_of_lt_of_le B.lt hdeep, by rw [hsame]; exact B.final, by rw [hsame]; exact B.up,
            B.below, by rw [hsame]; exact B.exn⟩
        have hL : Leaving { m' with k := k } c handlers .normal :=
          .inr ⟨.inl (by rw [hsame]), hhandlers⟩
        have hstep' : step procs m' = some ({ m' with k := k }.leave c fin sc) := by
          simp [step, hcontrol', hk, m₁]
        obtain ⟨h1, h2, h3, h4⟩ := leave_does hsim hB hL hclauses.lt hclauses.final
          ((hsafe.step hstep).reached (hreach.tail hstep'))
        have hdoes := Does.head (hreach.tail hstep') (h1.trans htrace) (le_trans hdeep h2)
          ((hkept.mono (Nat.le_succ c)).trans h3) h4
        rw [← evalFinally_append] at hdoes
        exact hdoes
      · intro t e' hend
        exact hend.mono (Nat.le_succ c)

/-! ## §6. Every statement. -/

/-- What `push_context` does: the new block, and the handler above it points down to it
unless that was cut. -/
theorem pushContext_spec (m : Machine) (jmp : JmpBuf) (hlt : ∀ p, m.handlers = some p → p < c) :
    ∃ heap', m.pushContext c jmp
        = { m with heap := heap', deep := max m.deep (c + 1), handlers := some c } ∧
      Kept c m.handlers m.heap heap' ∧
      heap' c = ⟨jmp, m.handlers, .mark, .none, none, 0⟩ ∧
      ∀ p, m.handlers = some p → (heap' p).down = .null ∨ (heap' p).down = .ctx c := by
  let ctx : Context := ⟨jmp, m.handlers, .mark, .none, none, 0⟩
  let heap₁ := Function.update m.heap c ctx
  cases hh : m.handlers with
  | none =>
      refine ⟨heap₁, ?_, .modify le_rfl, ?_, fun p hp => nomatch hp⟩
      · simp [pushContext, hh, heap₁, ctx]
      · simp [heap₁, ctx, hh]
  | some p =>
      have hp : p < c := hlt p hh
      have hp₁ : heap₁ p = m.heap p := Function.update_of_ne (by omega) ..
      by_cases hnull : (m.heap p).down = .null
      · refine ⟨heap₁, ?_, .modify le_rfl, ?_, ?_⟩
        · simp [pushContext, hh, heap₁, ctx, Function.update_of_ne (show p ≠ c by omega), hnull]
        · simp [heap₁, ctx, hh]
        · rintro q ⟨⟩
          rw [hp₁]
          exact .inl hnull
      · let heap' := Function.update heap₁ p { m.heap p with down := .ctx c }
        have hother : ∀ i, i ≠ p → heap' i = heap₁ i := fun i hi => Function.update_of_ne hi ..
        have hself : heap' p = { m.heap p with down := .ctx c } := Function.update_self ..
        refine ⟨heap', ?_, ⟨?_, ?_⟩, ?_, ?_⟩
        · simp [pushContext, hh, heap', heap₁, ctx, Machine.modify,
            Function.update_of_ne (show p ≠ c by omega), hnull]
        · intro i hi hne
          rw [hother i fun h => hne (by rw [h])]
          exact Function.update_of_ne (by omega) ..
        · rintro q - ⟨⟩
          rw [hself]
          exact ⟨rfl, fun h => absurd h hnull⟩
        · rw [hother _ (by omega)]
          simp [heap₁, ctx, hh]
        · rintro q ⟨⟩
          rw [hself]
          exact .inr rfl

/-- `internal_raise` under a handler in state none delivers to it. -/
theorem internalRaise_top {e : Exn} {initial : Bool} (hhandlers : m.handlers = some c)
    (hstate : (m.heap c).state = .none) :
    m.internalRaise initial e = { m.modify c fun ctx =>
        { ctx with
          state := .active
          name := some e.name
          args := e.args
          down := if initial then .null else ctx.down } with
      handlers := (m.heap c).up, control := .jumped c } := by
  simp [internalRaise, findContext, hhandlers, hstate, Machine.modify]

/-- What an OS_TRY does: its block is there, and all else but the `down` of the handler is as it
was, where the stack frame is. -/
theorem try_step (procs : Nat → Proc) {slot : Nat} {body : Stmt} {catches : Catches}
    {fin : Option Stmt} (hcontrol : m.control = .run (.try_ slot body catches fin) sc)
    (hsp : sc.base + slot < sc.sp) (hlt : ∀ p, m.handlers = some p → p < sc.base + slot) :
    ∃ heap', step procs m = some { m with
        heap := heap', deep := max m.deep (sc.base + slot + 1),
        handlers := some (sc.base + slot),
        control := .run body { sc with lex := some (sc.base + slot) },
        k := .body (sc.base + slot) catches fin sc :: m.k } ∧
      Kept (sc.base + slot) m.handlers m.heap heap' ∧
      heap' (sc.base + slot) = ⟨⟨catches, fin, m.k, sc⟩, m.handlers, .mark, .none, none, 0⟩ ∧
      ∀ p, m.handlers = some p →
        (heap' p).down = .null ∨ (heap' p).down = .ctx (sc.base + slot) := by
  obtain ⟨heap', hpush, hkept, hnew, htop⟩ :=
    pushContext_spec (m.clobber sc.sp) ⟨catches, fin, m.k, sc⟩ hlt
  refine ⟨heap', ?_, (Kept.clobber hsp.le).trans hkept, hnew, htop⟩
  simp only [step, hcontrol, hpush]
  rfl

/-- A TRY whose body came to an end: with the block `c` on top in state none. -/
theorem tryBody_does (hsim : Simulated procs f) {slot : Nat} {body : Stmt} {catches : Catches}
    {fin : Option Stmt} (hcontrol : m.control = .run (.try_ slot body catches fin) sc)
    (hroom : sc.Room n (.try_ slot body catches fin)) (hsafe : Safe procs m)
    (hlt : ∀ p, m.handlers = some p → p < n) :
    Does procs (f + 1) m n m.handlers m.k
      ((eval false procs f body none).bind fun r =>
        evalClauses false (eval false procs f) catches fin r.1 r.2) := by
  obtain ⟨hn, hbody, hclauses⟩ := hroom.try_
  obtain ⟨c, hc⟩ : ∃ c, c = sc.base + slot := ⟨_, rfl⟩
  have hltc : ∀ p, m.handlers = some p → p < c := fun p hp => by
    have := hlt p hp
    omega
  obtain ⟨heap', hstep, hkept, hnew, htop⟩ :=
    try_step procs hcontrol hclauses.lt (hc ▸ hltc)
  rw [← hc] at hn hbody hclauses hstep hkept hnew htop
  let m₁ : Machine := { m with
    heap := heap', deep := max m.deep (c + 1), handlers := some c,
    control := .run body { sc with lex := some c }, k := .body c catches fin sc :: m.k }
  have hcdeep : c < m₁.deep := lt_of_lt_of_le (Nat.lt_succ_self c) (le_max_right _ _)
  have hsafe₁ : Safe procs m₁ := hsafe.step hstep
  have hrun := hsim body { sc with lex := some c } (c + 1) m₁ rfl hbody hsafe₁
    (by rintro _ ⟨⟩; exact Nat.lt_succ_self _) (by rintro _ ⟨⟩; exact Nat.lt_succ_self _)
  have hcur : ((some c).bind fun c => (m₁.heap c).exn) = none := by
    show (heap' c).exn = none
    rw [hnew]
    rfl
  rw [hcur] at hrun
  -- whatever the body did, the block is as it was pushed but for its `down` pointer
  have hblock : ∀ {m' : Machine}, Kept (c + 1) (some c) heap' m'.heap → m'.heap c
      = ⟨⟨catches, fin, m.k, sc⟩, m.handlers, (m'.heap c).down, .none, none, 0⟩ := by
    intro m' hkept'
    obtain ⟨hsame, -⟩ := hkept'.top c (Nat.lt_succ_self _) rfl
    rw [hsame, hnew]
  refine Does.step hstep rfl (le_max_left _ _) (hkept.mono hn) (hrun.bind (fun t => rfl) ?_ ?_)
  · -- the body ended: the block is still there and holds nothing
    rintro t ⟨m', hreach, htrace, hcontrol', hk, hhandlers, hdeep, hkept'⟩
    have hc' := hblock hkept'
    have hB : Block { m' with k := m.k } c m.handlers none fin :=
      ⟨lt_of_lt_of_le hcdeep hdeep, by rw [hc'], by rw [hc'], hltc, by rw [hc']; rfl⟩
    have hL : Leaving { m' with k := m.k } c m.handlers .normal := .inl (by rw [hc'])
    have hstep' : step procs m' = some ({ m' with k := m.k }.leave c fin sc) := by
      simp [step, hcontrol', hk, m₁]
    obtain ⟨h1, h2, h3, h4⟩ := leave_does hsim hB hL hclauses.lt hclauses.final
      (hsafe₁.reached (hreach.tail hstep'))
    have hdoes := Does.head (hreach.tail hstep') (h1.trans htrace) (le_trans hdeep h2)
      ((hkept'.under le_rfl (Nat.le_succ _)).trans h3) h4
    rw [← evalFinally_append] at hdoes
    exact hdoes.mono hn
  · -- the exception comes to this block
    rintro t e ⟨m', hreach, htrace, initial, hcontrol', hhandlers, hdeep, hkept', hdown⟩
    have hc' := hblock hkept'
    have hcdeep' : c < m'.deep := lt_of_lt_of_le hcdeep hdeep
    let d : Down := if initial then .null else (m'.heap c).down
    let ctx : Context := ⟨⟨catches, fin, m.k, sc⟩, m.handlers, d, .active, some e.name, e.args⟩
    let m₂ : Machine := { m' with
      heap := Function.update m'.heap c ctx, handlers := m.handlers, control := .jumped c }
    have hstep' : step procs m' = some m₂ := by
      have hraise : step procs m' = some (m'.internalRaise initial e) := by simp [step, hcontrol']
      rw [hraise, internalRaise_top hhandlers (by rw [hc'])]
      simp only [Machine.modify, m₂, ctx, d]
      rw [hc']
    have hctx : m₂.heap c = ctx := Function.update_self ..
    have hother : ∀ i, i ≠ c → m₂.heap i = m'.heap i := fun i hi => Function.update_of_ne hi ..
    have hB : Block m₂ c m.handlers (some e) fin :=
      ⟨hcdeep', by rw [hctx], by rw [hctx], hltc, by rw [hctx]; rfl⟩
    have hd : DownChain m₂.heap m₂.deep c d := by
      cases initial with
      | true => exact .null
      | false =>
          exact (hdown rfl c rfl).congr le_rfl fun i hi _ => by rw [hother i (by omega)]
    have hL : Leaving m₂ c m.handlers (.raised e) := by
      refine ⟨by rw [hctx], rfl, by rw [hctx]; rfl, by rw [hctx]; exact hd, fun p hp => ?_⟩
      have hpc := hltc p hp
      have hsame : m₂.heap p = heap' p := by
        rw [hother p (by omega)]
        exact hkept'.other p (Nat.lt_succ_of_lt hpc) (by rintro ⟨⟩; omega)
      rw [hsame]
      exact htop p hp
    have hdoes₂ := clauses_does hsim (show m₂.control = .jumped c from rfl)
      (by rw [hctx]) hclauses (hsafe₁.reached (hreach.tail hstep')) hB hL
    have hdoes := Does.head (hreach.tail hstep') htrace hdeep
      ((hkept'.under le_rfl (Nat.le_succ _)).trans (.modify le_rfl)) hdoes₂
    rw [← evalClauses_append] at hdoes
    exact hdoes.mono hn

/-- **The machine does what the structured meaning says**, for every statement and
every fuel. -/
theorem run_does (procs : Nat → Proc) (f : Nat) : Simulated procs f := by
  induction f with
  | zero =>
      intro s sc n m _ _ _ _ _
      exact rfl
  | succ f ih =>
      intro s sc n m hcontrol hroom hsafe hlex hlt
      have hsp := hroom.le
      cases s with
      | skip =>
          have hstep : step procs m = some { m with control := .ret } := by simp [step, hcontrol]
          exact ⟨_, .head hstep (.refl _), (List.append_nil _).symm, rfl, rfl, rfl, le_rfl, .refl⟩
      | act a =>
          have hstep : step procs m = some { m with control := .ret, trace := m.trace ++ [a] } := by
            simp [step, hcontrol]
          exact ⟨_, .head hstep (.refl _), rfl, rfl, rfl, rfl, le_rfl, .refl⟩
      | raise e =>
          have hstep : step procs m =
              some { m.clobber sc.sp with control := .raising true e } := by
            simp [step, hcontrol]
          exact ⟨_, .head hstep (.refl _), (List.append_nil _).symm, true, rfl, rfl, le_rfl,
            .clobber hsp, fun h => nomatch h⟩
      | reraise =>
          cases hcur : sc.lex.bind fun c => (m.heap c).exn with
          | none =>
              have hstep : step procs m = some { m with control := .halted .undefined } := by
                simp [step, hcontrol, hcur]
              exact ⟨_, .head hstep (.refl _), (List.append_nil _).symm, rfl⟩
          | some e =>
              have hstep : step procs m =
                  some { m.clobber sc.sp with control := .raising true e } := by
                simp [step, hcontrol, hcur]
              exact ⟨_, .head hstep (.refl _), (List.append_nil _).symm, true, rfl, rfl, le_rfl,
                .clobber hsp, fun h => nomatch h⟩
      | call p =>
          let m₁ : Machine := { m.clobber sc.sp with
            control := .run (procs p).body ⟨sc.sp, (procs p).frame, none⟩ }
          have hstep : step procs m = some m₁ := by simp [step, hcontrol, m₁]
          have hrun := ih (procs p).body ⟨sc.sp, (procs p).frame, none⟩ sc.sp m₁ rfl
            (.proc (procs p) sc.sp) (hsafe.step hstep) (fun c h => nomatch h)
            fun q hq => lt_of_lt_of_le (hlt q hq) hsp
          exact Does.step hstep rfl le_rfl (.clobber hsp) (hrun.mono hsp)
      | try_ slot body catches fin => exact tryBody_does ih hcontrol hroom hsafe hlt
      | seq s t =>
          obtain ⟨hroom₁, hroom₂⟩ := hroom.seq
          let m₁ : Machine := { m with control := .run s sc, k := .seq t sc :: m.k }
          have hstep : step procs m = some m₁ := by simp [step, hcontrol, m₁]
          have hrun := ih s sc n m₁ rfl hroom₁ (hsafe.step hstep) hlex hlt
          refine Does.step hstep rfl le_rfl .refl (hrun.bind (fun t => rfl) ?_ ?_)
          · rintro t₁ ⟨m', hreach, htrace, hcontrol', hk, hhandlers, hdeep, hkept⟩
            let m₂ : Machine := { m' with control := .run t sc, k := m.k }
            have hstep' : step procs m' = some m₂ := by simp [step, hcontrol', hk, m₁, m₂]
            have hrun' := ih t sc n m₂ rfl hroom₂
              ((hsafe.step hstep).reached (hreach.tail hstep')) hlex fun p hp =>
                hlt p (hhandlers ▸ hp)
            -- the block in scope holds the same exception as before
            have hcur : (sc.lex.bind fun c => (m₂.heap c).exn) =
                sc.lex.bind fun c => (m.heap c).exn := by
              cases hl : sc.lex with
              | none => rfl
              | some c => exact hkept.exn (hlex c hl)
            have hhandlers₂ : m₂.handlers = m.handlers := hhandlers
            rw [hcur, hhandlers₂] at hrun'
            exact Does.head (hreach.tail hstep') htrace hdeep hkept hrun'
          · intro t₁ e hend
            exact hend

end Metta.Exceptions
