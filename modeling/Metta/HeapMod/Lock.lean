/-
  Metta.HeapMod.Lock — who is inside the heap: heap_mod.cpp, lockable.h.

  The three methods of `heap_v1` take the heap's lock by a scope object and call
  into `heap_t`.  Any number of threads run them; `tas`, the releases and the
  entry to and exit from `heap_t` are atomic.

  `heap_v1_allocate` releases the lock in its FINALLY clause.  When it raises
  `no_memory` the jump leaves the scope object behind; when it returns, the
  object's destructor releases the lock a second time, whoever has it by then.

    • `lock_safe_iff`        — a run is as it should be iff no second release is in it,
    • `exclusive_of_quiet`   — mutual exclusion needs less: second releases of a free lock,
    • `free_when_out`        — whatever happens, the lock is not left behind.

  `holder` is a ghost: the thread whose `tas` was the last to get the lock, until
  the next release.
-/
import Metta.Machine.Trace

namespace Metta.HeapMod.Locking

open Metta.Machine

/-! ## §1. The methods. -/

/-- The methods of `heap_v1`. -/
inductive Call where
  | allocate | free | check
  deriving DecidableEq, Repr

/-- Where a thread is. -/
inductive Pc where
  /-- In no method of the heap. -/
  | idle
  /-- In `lockable_t::lock`. -/
  | locking (call : Call)
  /-- It has the lock and has not called into `heap_t` yet. -/
  | locked (call : Call)
  /-- In `heap_t::allocate`, `heap_t::free` or `heap_t::check_integrity`. -/
  | inside (call : Call)
  /-- `heap_v1_allocate` at its FINALLY clause; `found` says whether `res` is set. -/
  | finally_ (found : Bool)
  /-- After `OS_ENDTRY`. -/
  | tried (found : Bool)
  /-- At the destructor of the scope object; whether the lock was released before. -/
  | leaving (unlocked : Bool)
  deriving DecidableEq, Repr

/-- The lock and the threads. -/
structure State (Thread : Type) where
  lockValue : Nat
  pc : Thread → Pc
  holder : Option Thread

/-- What a thread can do next. -/
inductive Action where
  | call (call : Call)
  | tas
  | enter
  | exit (found : Bool)
  | unlock
  | proceed
  | destroy
  deriving DecidableEq, Repr

variable {Thread : Type} [DecidableEq Thread]

/-- `lock_value` is 0 and no thread is in a method. -/
def init : State Thread := ⟨0, fun _ => .idle, none⟩

/-- `lockable_t::has_lock`. -/
def State.hasLock (s : State Thread) : Bool := s.lockValue != 0

/-- The thread goes on to `pc`. -/
def State.goto (s : State Thread) (t : Thread) (pc : Pc) : State Thread :=
  { s with pc := Function.update s.pc t pc }

/-- `atomic_ops::tas` has got the lock, and the thread goes on to `pc`. -/
def State.acquire (s : State Thread) (t : Thread) (pc : Pc) : State Thread :=
  { lockValue := 1, pc := Function.update s.pc t pc, holder := some t }

/-- `atomic_ops::release`, and the thread goes on to `pc`. -/
def State.release (s : State Thread) (t : Thread) (pc : Pc) : State Thread :=
  { lockValue := 0, pc := Function.update s.pc t pc, holder := none }

@[simp] theorem State.goto_pc_self (s : State Thread) (t : Thread) (pc : Pc) :
    (s.goto t pc).pc t = pc := Function.update_self ..

@[simp] theorem State.goto_pc_ne (s : State Thread) {t u : Thread} (h : u ≠ t) (pc : Pc) :
    (s.goto t pc).pc u = s.pc u := Function.update_of_ne h ..

@[simp] theorem State.acquire_pc_self (s : State Thread) (t : Thread) (pc : Pc) :
    (s.acquire t pc).pc t = pc := Function.update_self ..

@[simp] theorem State.acquire_pc_ne (s : State Thread) {t u : Thread} (h : u ≠ t) (pc : Pc) :
    (s.acquire t pc).pc u = s.pc u := Function.update_of_ne h ..

@[simp] theorem State.release_pc_self (s : State Thread) (t : Thread) (pc : Pc) :
    (s.release t pc).pc t = pc := Function.update_self ..

@[simp] theorem State.release_pc_ne (s : State Thread) {t u : Thread} (h : u ≠ t) (pc : Pc) :
    (s.release t pc).pc u = s.pc u := Function.update_of_ne h ..

/-- **One atomic step of a thread**; `exceptions` says whether `PVS(exceptions)`
is set. -/
def step (exceptions : Bool) (s : State Thread) : Thread × Action → Option (State Thread)
  | (t, .call c) => if s.pc t = .idle then some (s.goto t (.locking c)) else none
  | (t, .tas) =>
    match s.pc t with
    | .locking c =>
      if s.lockValue = 1 then some { s with lockValue := 1 }
      else some (s.acquire t (.locked c))
    | _ => none
  | (t, .enter) =>
    match s.pc t with
    -- `allocate` and `free` assert `has_lock()`
    | .locked c => if s.hasLock ∨ c = .check then some (s.goto t (.inside c)) else none
    | _ => none
  | (t, .exit found) =>
    match s.pc t with
    | .inside .allocate =>
      some (s.goto t (if exceptions then .finally_ found else .leaving false))
    | .inside _ => some (s.goto t (.leaving false))
    | _ => none
  | (t, .unlock) =>
    match s.pc t with
    | .finally_ found => some (s.release t (.tried found))
    | _ => none
  | (t, .proceed) =>
    match s.pc t with
    -- `OS_RAISE` jumps out of the method, past the destructor
    | .tried found => some (s.goto t (if found then .leaving true else .idle))
    | _ => none
  | (t, .destroy) =>
    match s.pc t with
    | .leaving _ => some (s.release t .idle)
    | _ => none

/-! ## §2. What a run should be like. -/

/-- No two threads are inside `heap_t`. -/
def Exclusive (s : State Thread) : Prop :=
  ∀ t u c d, s.pc t = .inside c → s.pc u = .inside d → t = u

/-- Before the lock is acquired, and after the method is left. -/
def Pc.out : Pc → Bool
  | .idle | .locking _ => true
  | _ => false

/-- The lock is free when every thread is out. -/
def FreeWhenOut (s : State Thread) : Prop := (∀ t, (s.pc t).out = true) → s.lockValue = 0

/-- The steps that release the lock. -/
def Action.releases : Action → Bool
  | .unlock | .destroy => true
  | _ => false

/-- A thread that releases the lock in this step holds it. -/
def ReleasesOwn (p : State Thread × (Thread × Action)) : Prop :=
  p.2.2.releases = true → p.1.holder = some p.2.1

/-- **A run in which the lock does its work**, in every state and every step. -/
structure Works (tr : List (State Thread × (Thread × Action))) (s : State Thread) : Prop where
  exclusive : Exclusive s ∧ ∀ p ∈ tr, Exclusive p.1
  free : FreeWhenOut s ∧ ∀ p ∈ tr, FreeWhenOut p.1
  own : ∀ p ∈ tr, ReleasesOwn p

/-- The destructor of the scope object, in a method that has released the lock
already. -/
def SecondRelease (p : State Thread × (Thread × Action)) : Prop :=
  p.2.2 = .destroy ∧ p.1.pc p.2.1 = .leaving true

/-! ## §3. What a step can do. -/

/-- The thread has acquired the lock and not released it. -/
def Pc.holding : Pc → Bool
  | .locked _ | .inside _ | .finally_ _ | .leaving false => true
  | _ => false

theorem Pc.not_out {pc : Pc} (h : pc.holding = true) : pc.out = false := by
  cases pc <;> first | rfl | cases h

/-- The three kinds of steps: those that leave the lock alone, the `tas` that gets
it, and the releases. -/
inductive Effect (s : State Thread) (t : Thread) (a : Action) : State Thread → Prop where
  | goes (pc : Pc) : a.releases = false → pc.holding = (s.pc t).holding → Effect s t a (s.goto t pc)
  | acquires (c : Call) : a.releases = false → s.lockValue ≠ 1 →
      Effect s t a (s.acquire t (.locked c))
  | releases (pc : Pc) : (s.pc t).holding = true ∨ SecondRelease (s, (t, a)) →
      pc.holding = false → Effect s t a (s.release t pc)

/-- **Everything a step can do.** -/
theorem step_effect {exceptions : Bool} {s s' : State Thread} {t : Thread} {a : Action}
    (h : step exceptions s (t, a) = some s') : Effect s t a s' := by
  cases a with
  | call c =>
      simp only [step] at h
      split at h
      next hpc => cases h; exact .goes _ rfl (by rw [hpc]; rfl)
      next => cases h
  | tas =>
      simp only [step] at h
      split at h
      next c hpc =>
        split at h
        next hone =>
          -- the lock was taken: nothing changes
          have hsame : ({ s with lockValue := 1 } : State Thread) = s.goto t (s.pc t) := by
            rw [State.goto, Function.update_eq_self, ← hone]
          cases h
          rw [hsame]
          exact .goes _ rfl rfl
        next hne => cases h; exact .acquires c rfl hne
      next => cases h
  | enter =>
      simp only [step] at h
      split at h
      next c hpc =>
        split at h
        next => cases h; exact .goes _ rfl (by rw [hpc]; rfl)
        next => cases h
      next => cases h
  | exit found =>
      simp only [step] at h
      split at h
      next hpc => cases h; exact .goes _ rfl (by rw [hpc]; cases exceptions <;> rfl)
      next _ hpc => cases h; exact .goes _ rfl (by rw [hpc]; rfl)
      next => cases h
  | unlock =>
      simp only [step] at h
      split at h
      next found hpc => cases h; exact .releases _ (.inl (by rw [hpc]; rfl)) rfl
      next => cases h
  | proceed =>
      simp only [step] at h
      split at h
      next found hpc => cases h; exact .goes _ rfl (by rw [hpc]; cases found <;> rfl)
      next => cases h
  | destroy =>
      simp only [step] at h
      split at h
      next unlocked hpc =>
        cases h
        refine .releases _ ?_ rfl
        cases unlocked with
        | false => exact .inl (by rw [hpc]; rfl)
        | true => exact .inr ⟨rfl, hpc⟩
      next => cases h

/-! ## §4. Invariants. -/

/-- The lock is taken exactly when it has a holder, and the holder has not
released it. -/
structure Held (s : State Thread) : Prop where
  lock : s.lockValue = if s.holder.isSome then 1 else 0
  holding : ∀ t, s.holder = some t → (s.pc t).holding = true

/-- The threads that have not released the lock hold it. -/
def Owned (s : State Thread) : Prop := ∀ t, (s.pc t).holding = true → s.holder = some t

omit [DecidableEq Thread] in
theorem init_held : Held (init : State Thread) := ⟨rfl, fun _ h => by cases h⟩

omit [DecidableEq Thread] in
theorem init_owned : Owned (init : State Thread) := fun _ h => by cases h

variable {exceptions : Bool} {s s' : State Thread} {l : Thread × Action}

/-- Every step keeps the holder in step with the lock. -/
theorem Held.step (I : Held s) (h : step exceptions s l = some s') : Held s' := by
  obtain ⟨t, a⟩ := l
  cases step_effect h with
  | goes pc _ hpc =>
      refine ⟨I.lock, fun u hu => ?_⟩
      have hold := I.holding u hu
      by_cases hut : u = t
      · subst hut
        rw [State.goto_pc_self, hpc]
        exact hold
      · rw [State.goto_pc_ne s hut]
        exact hold
  | acquires c _ _ =>
      refine ⟨rfl, fun u hu => ?_⟩
      obtain rfl : t = u := Option.some.inj hu
      rw [State.acquire_pc_self]
      rfl
  | releases pc _ _ => exact ⟨rfl, fun _ hu => by cases hu⟩

/-- A release by the holder, or of a free lock, takes it from nobody. -/
theorem Owned.step (O : Owned s) (I : Held s) (hok : SecondRelease (s, l) → s.holder = none)
    (h : step exceptions s l = some s') : Owned s' := by
  obtain ⟨t, a⟩ := l
  intro u hu
  cases step_effect h with
  | goes pc _ hpc =>
      by_cases hut : u = t
      · subst hut
        rw [State.goto_pc_self, hpc] at hu
        exact O u hu
      · rw [State.goto_pc_ne s hut] at hu
        exact O u hu
  | acquires c _ hne =>
      by_cases hut : u = t
      · rw [hut]
        rfl
      · -- nobody could have the lock
        rw [State.acquire_pc_ne s hut] at hu
        have hlock := I.lock
        rw [O u hu] at hlock
        exact absurd hlock hne
  | releases pc hhad hpc =>
      by_cases hut : u = t
      · subst hut
        rw [State.release_pc_self, hpc] at hu
        cases hu
      · rw [State.release_pc_ne s hut] at hu
        have hholder := O u hu
        rcases hhad with hhad | hsecond
        · rw [O t hhad] at hholder
          exact absurd (Option.some.inj hholder).symm hut
        · rw [hok hsecond] at hholder
          cases hholder

omit [DecidableEq Thread] in
theorem Owned.exclusive (O : Owned s) : Exclusive s := by
  intro t u c d ht hu
  have hholder := O t (by rw [ht]; rfl)
  rw [O u (by rw [hu]; rfl)] at hholder
  exact (Option.some.inj hholder).symm

omit [DecidableEq Thread] in
theorem Held.free (I : Held s) : FreeWhenOut s := by
  intro hout
  rw [I.lock]
  cases hh : s.holder with
  | none => rfl
  | some t =>
      have := Pc.not_out (I.holding t hh)
      rw [hout t] at this
      cases this

/-! ## §5. Runs. -/

variable {tr : List (State Thread × (Thread × Action))}

theorem trace_held (h : Trace (step exceptions) init tr s) : Held s ∧ ∀ p ∈ tr, Held p.1 :=
  h.invariant init_held (fun I (_ : True) hs => I.step hs) fun _ _ => trivial

theorem trace_owned (h : Trace (step exceptions) init tr s)
    (hok : ∀ p ∈ tr, SecondRelease p → p.1.holder = none) : Owned s ∧ ∀ p ∈ tr, Owned p.1 := by
  have hinv := h.invariant (P := fun s => Held s ∧ Owned s) ⟨init_held, init_owned⟩
    (fun I hq hs => ⟨I.1.step hs, I.2.step I.1 hq hs⟩) hok
  exact ⟨hinv.1.2, fun p hp => (hinv.2 p hp).2⟩

/-- **The lock is not left behind**: in every run it is free when every thread is
out, whether calls returned or raised `no_memory`. -/
theorem free_when_out (h : Trace (step exceptions) init tr s) : FreeWhenOut s :=
  (trace_held h).1.free

/-- **Mutual exclusion** needs only that a second release finds the lock free:
nobody has acquired it between the two. -/
theorem exclusive_of_quiet (h : Trace (step exceptions) init tr s)
    (hok : ∀ p ∈ tr, SecondRelease p → p.1.holder = none) : Exclusive s :=
  (trace_owned h hok).1.exclusive

/-- **The lock does its work in a run iff no method of it releases the lock
twice.** -/
theorem lock_safe_iff (h : Trace (step exceptions) init tr s) :
    Works tr s ↔ ∀ p ∈ tr, ¬ SecondRelease p := by
  obtain ⟨hheld, hheldAll⟩ := trace_held h
  constructor
  · -- a thread at its second release is not the holder
    rintro W ⟨s₀, t, a⟩ hp ⟨ha, hpc⟩
    have hown := W.own _ hp
    simp only at ha hpc
    subst ha
    have hhold := (hheldAll _ hp).holding t (hown rfl)
    rw [hpc] at hhold
    cases hhold
  · intro hno
    obtain ⟨howned, hownedAll⟩ := trace_owned h fun p hp hsecond => absurd hsecond (hno p hp)
    refine ⟨⟨howned.exclusive, fun p hp => (hownedAll p hp).exclusive⟩,
      ⟨hheld.free, fun p hp => (hheldAll p hp).free⟩, ?_⟩
    rintro ⟨s₀, t, a⟩ hp hrel
    obtain ⟨s₁, hs₁⟩ := h.possible _ hp
    simp only at hrel hs₁
    cases step_effect hs₁ with
    | goes pc hnot _ => rw [hnot] at hrel; cases hrel
    | acquires c hnot _ => rw [hnot] at hrel; cases hrel
    | releases pc hhad _ =>
        rcases hhad with hhad | hsecond
        · exact hownedAll _ hp t hhad
        · exact absurd hsecond (hno _ hp)

/-- A call that raises `no_memory` and then a `free` by another thread. -/
theorem lock_safe_no_memory :
    ∃ tr s, Trace (step true) (init : State Nat) tr s ∧ s.pc 1 = .inside .free ∧ Works tr s := by
  have hrun : (runList (step true) (init : State Nat)
      [(0, .call .allocate), (0, .tas), (0, .enter), (1, .call .free), (1, .tas), (0, .exit false),
        (0, .unlock), (0, .proceed), (1, .tas), (1, .enter)]).map (fun s => s.pc 1)
      = some (.inside .free) := by decide +kernel
  obtain ⟨s, hs, hpc⟩ := Option.map_eq_some_iff.mp hrun
  obtain ⟨tr, h, hmap⟩ := Trace.of_runList hs
  refine ⟨tr, s, h, hpc, (lock_safe_iff h).mpr fun p hp hsecond => ?_⟩
  -- no destructor runs in it
  have hmem : p.2.2 ∈ (tr.map Prod.snd).map Prod.snd :=
    List.mem_map_of_mem (List.mem_map_of_mem hp)
  rw [hmap, hsecond.1] at hmem
  revert hmem
  decide

/-- A thread returns from `allocate` with a block; before the destructor of its scope
object runs, a second thread has acquired the lock and is inside; the destructor
releases the lock, and a third thread gets it. -/
theorem three_threads_inside :
    ∃ tr s, Trace (step true) (init : State Nat) tr s ∧ s.pc 1 = .inside .allocate ∧
      s.pc 2 = .inside .free ∧ ¬ Works tr s := by
  have hrun : (runList (step true) (init : State Nat)
      [(0, .call .allocate), (0, .tas), (0, .enter), (0, .exit true), (0, .unlock), (0, .proceed),
        (1, .call .allocate), (1, .tas), (1, .enter), (0, .destroy),
        (2, .call .free), (2, .tas), (2, .enter)]).map (fun s => (s.pc 1, s.pc 2))
      = some (.inside .allocate, .inside .free) := by decide +kernel
  obtain ⟨s, hs, hpc⟩ := Option.map_eq_some_iff.mp hrun
  obtain ⟨tr, h, -⟩ := Trace.of_runList hs
  simp only [Prod.mk.injEq] at hpc
  refine ⟨tr, s, h, hpc.1, hpc.2, fun W => ?_⟩
  have := W.exclusive.1 1 2 _ _ hpc.1 hpc.2
  omega

end Metta.HeapMod.Locking
