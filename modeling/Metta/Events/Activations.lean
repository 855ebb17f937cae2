/-
  Metta.Events.Activations — the activation mode over the operations of
  modules/tcb/root_domain/events.cpp.

  An operation turns activations off with a `vcpu_lock_t` and on again when
  the lock goes out of scope, if they were on.  But raising is a jump that
  runs no destructors.  Some operations give the lock back in a FINALLY
  clause, some raise where nothing could go wrong, and some do not:

    • `lock`, `unlock`, `withLock` — the lock and its scope,
    • `eventsCreate` .. `eventsDestroyChannel` — the operations with a lock,
    • `RaisesLocked` — the operation raises while the lock is held,
    • `activations_preserved_iff` — the mode is what it was otherwise.

  Code outside comes back in the mode it was called in.  What it answers is a
  function of the number of calls that were made.
-/
import Metta.Events.Attach
import Metta.Machine.Exits

namespace Metta.Events

open Metta.Machine Metta.Exceptions

/-! ## §1. The processor and its lock. -/

/-- The instance with its sequencers, and the processor. -/
structure Cpu where
  inst : Instance
  nSequencers : Nat
  sequencers : Nat → Option Value
  /-- `are_activations_enabled`. -/
  enabled : Bool
  /-- `vcpu_lock_t::reenable` of the lock in scope. -/
  reenable : Bool
  /-- How many calls have been made to code outside. -/
  calls : Nat

/-- Code outside: what it answers to the n-th call. -/
structure Services where
  /-- `new(heap)` has room; the heap may raise too. -/
  alloc : Nat → Except Exn Bool
  /-- `dispatcher->attach(.., ep)`. -/
  attach : Endpoint → Nat → Except Exn Unit
  send : Endpoint → Value → Nat → Except Exn Unit
  allocateChannel : Nat → Except Exn Endpoint
  releaseChannel : Endpoint → Nat → Except Exn Unit
  /-- `binder->close(ep)` blocks, and others may run. -/
  close : Endpoint → Nat → Instance → Except Exn Unit × Instance
  /-- `are_events_pending`. -/
  pending : Nat → Bool
  /-- `rfa` may activate others before it comes back. -/
  rfa : Nat → Instance → Instance

/-- What the operations are made of. -/
abbrev Op (α : Type) := Act Failure Cpu α

/-- A call that answers. -/
def answer {α : Type} (f : Nat → Except Exn α) : Op α := fun c =>
  ((f c.calls).mapError .raised, { c with calls := c.calls + 1 })

/-- A part of an operation that does not leave the instance. -/
def onInstance {α : Type} (f : Instance → Except Failure (α × Instance)) : Op α := fun c =>
  match f c.inst with
  | .ok (a, inst) => (.ok a, { c with inst })
  | .error e => (.error e, c)

/-- `vcpu_lock_t::lock`. -/
def lock : Op Unit :=
  .modify fun c =>
    if c.enabled then { c with reenable := true, enabled := false } else { c with reenable := false }

/-- `vcpu_lock_t::unlock`. -/
def unlock (s : Services) : Op Unit :=
  .modify fun c =>
    if c.reenable then
      if s.pending c.calls then
        { c with enabled := true, calls := c.calls + 1, inst := s.rfa c.calls c.inst }
      else { c with enabled := true, calls := c.calls + 1 }
    else c

/-- The scope of a `vcpu_lock_t`.  The destructor unlocks when the body returns, and is not
run when it raises. -/
def withLock {α : Type} (s : Services) (body : Op α) : Op α := fun c =>
  match (do lock; let a ← body; unlock s; return a : Op α) { c with reenable := false } with
  | (r, c') => (r, { c' with reenable := c.reenable })

/-- A raise is caught by a TRY; a fault or a panic is not. -/
def Failure.isRaised : Failure → Bool
  | raised _ => true
  | _ => false

/-- `OS_TRY { body } OS_FINALLY { lock.unlock(); } OS_ENDTRY`. -/
def tryUnlock {α : Type} (s : Services) (body : Op α) : Op α :=
  .finally_ Failure.isRaised body (unlock s)

/-! ## §2. The operations. -/

/-- `events_v1.no_resources`. -/
def noResources : Failure := .raised ⟨"events_v1.no_resources", 0⟩

/-- `events_v1.invalid`. -/
def invalidEvent : Failure := .raised ⟨"events_v1.invalid", 0⟩

/-- `event_count_t(istate)`, added to the list of all counts. -/
def newCount (i : Instance) : Nat × Instance :=
  let ec := i.base.nCounts
  (ec, { i with
    base := create i.base true
    ep := Function.update i.ep ec nullEp
    prevNotify := Function.update i.prevNotify ec none
    nextNotify := Function.update i.nextNotify ec none
    closed := Function.update i.closed ec false })

/-- `new(istate->heap)`, which may be null. -/
def allocate (s : Services) : Op Unit := do
  let room ← answer s.alloc
  if room then return () else .stop noResources

/-- `events_create`. -/
def eventsCreate (s : Services) : Op Nat :=
  withLock s do
    allocate s
    onInstance fun i => .ok (newCount i)

/-- The count, which must exist. -/
def getCount (ec : Nat) : Op EventCount := onInstance fun i => (i.count ec).map (·, i)

/-- `unblock_event`. -/
def unblock (ec : Nat) (value : Value) (alerted : Bool) : Op (List Nat) :=
  onInstance fun i =>
    match unblockEvent i.base ec value alerted with
    | .error f => .error (.fault f)
    | .ok (woken, base) => .ok (woken, { i with base })

/-- `dispatcher->attach(notify, ep)`: the old handler. -/
def attachHandler (s : Services) (notify : Option Handler) (ep : Endpoint) :
    Op (Option Handler) := do
  answer (s.attach ep)
  onInstance fun i =>
    .ok (i.handler ep, { i with handler := Function.update i.handler ep notify })

/-- `events_destroy_channel`. -/
def eventsDestroyChannel (s : Services) (channel : Endpoint) : Op Unit :=
  withLock s <| tryUnlock s do
    let oldNotify ← attachHandler s none channel
    if oldNotify.isSome then .stop (.panic "Trying to free channel which is still attached!")
    answer (s.releaseChannel channel)

/-- `event_count->prev_notify->set_link(..)`, or `dispatcher->attach(..)` at the head. -/
def unchainPrev (s : Services) (ep : Endpoint) (prev next : Option Handler) : Op Unit :=
  match prev with
  | some prev => onInstance fun i => (i.setLinkAfter next prev).map ((), ·)
  | none => do
      let _ ← attachHandler s next ep
      return ()

/-- `event_count->next_notify->set_link(..)`. -/
def unchainNext (prev next : Option Handler) : Op Unit :=
  match next with
  | some next => onInstance fun i => (i.setLinkBefore prev next).map ((), ·)
  | none => return ()

/-- The handler of a count with an endpoint is taken out of the chain. -/
def unchain (s : Services) (ep : Endpoint) (prev next : Option Handler) : Op Unit :=
  if ep ≠ nullEp then do
    unchainPrev s ep prev next
    unchainNext prev next
  else return ()

/-- `binder->close(ep)`. -/
def closeEndpoint (s : Services) (ep : Endpoint) : Op Unit := fun c =>
  match s.close ep c.calls c.inst with
  | (r, inst) => (r.mapError .raised, { c with inst, calls := c.calls + 1 })

/-- The endpoint of a count that had one is closed and freed. -/
def closeDown (s : Services) (ep : Endpoint) : Op Unit :=
  if ep ≠ nullEp then do
    closeEndpoint s ep
    eventsDestroyChannel s ep
  else return ()

/-- The event count is taken off the list of all counts: its endpoint and its links. -/
def unlist (ec : Nat) : Op (Endpoint × Option Handler × Option Handler) :=
  onInstance fun i =>
    .ok ((i.ep ec, i.prevNotify ec, i.nextNotify ec),
      { i with base := { i.base with links := i.base.links.remove (.ecQueue ec) } })

/-- `heap->free(event_count)`. -/
def freeCount (ec : Nat) : Op Unit :=
  onInstance fun i =>
    .ok ((), { i with base := { i.base with counts := Function.update i.base.counts ec none } })

/-- `events_destroy`. -/
def eventsDestroy (s : Services) (ec : Nat) : Op Unit :=
  withLock s do
    let count ← getCount ec
    let _ ← unblock ec count.value true
    let (ep, prev, next) ← unlist ec
    unchain s ep prev next
    unlock s
    closeDown s ep
    lock
    freeCount ec

/-- `events_advance`. -/
def eventsAdvance (s : Services) (ec : Nat) (increment : Value) : Op Unit :=
  withLock s do
    let count ← getCount ec
    let value := count.value + increment
    onInstance fun i => .ok ((), { i with base := setValue i.base ec count value })
    let _ ← unblock ec value false
    let ep ← onInstance fun i => .ok (i.ep ec, i)
    if count.epType = .tx then tryUnlock s (answer (s.send ep value))

/-- `sequencer_t(0)`. -/
def newSequencer : Op Nat := fun c =>
  (.ok c.nSequencers, { c with
    nSequencers := c.nSequencers + 1
    sequencers := Function.update c.sequencers c.nSequencers (some 0) })

/-- `events_create_sequencer`. -/
def eventsCreateSequencer (s : Services) : Op Nat :=
  withLock s do
    allocate s
    newSequencer

/-- `events_destroy_sequencer`. -/
def eventsDestroySequencer (s : Services) (seq : Nat) : Op Unit :=
  withLock s <| .modify fun c => { c with sequencers := Function.update c.sequencers seq none }

/-- `events_ticket`. -/
def eventsTicket (s : Services) (seq : Nat) : Op Value :=
  withLock s fun c =>
    match c.sequencers seq with
    | none => (.error (.fault .noCount), c)
    | some v => (.ok v, { c with sequencers := Function.update c.sequencers seq (some (v + 1)) })

/-- `events_query_endpoint`; the count may be null. -/
def eventsQueryEndpoint (s : Services) : Option Nat → Op (Endpoint × EndpointType)
  | none => .stop invalidEvent
  | some ec => withLock s do
      let count ← getCount ec
      let ep ← onInstance fun i => .ok (i.ep ec, i)
      unlock s
      return (ep, count.epType)

/-- `events_create_channel`. -/
def eventsCreateChannel (s : Services) : Op Endpoint :=
  withLock s <| tryUnlock s do
    let result ← answer s.allocateChannel
    let oldNotify ← attachHandler s none result
    if oldNotify.isSome then .stop (.panic "Newly allocated channel is already attached!")
    return result

/-! ## §3. The mode of one step. -/

/-- Activations are on or off, and the lock in scope turns them on again or not. -/
def Mode (enabled reenable : Bool) (c : Cpu) : Prop :=
  c.enabled = enabled ∧ c.reenable = reenable

/-- What is raised leaves the mode so; a fault or a panic does not leave at all. -/
def Raised (P : Cpu → Prop) (e : Failure) (c : Cpu) : Prop := e.isRaised = true → P c

/-- The mode is kept, whether it returns or raises. -/
def KeepsMode {α : Type} (x : Op α) : Prop :=
  ∀ a b, Act.Spec (Mode a b) x (fun _ => Mode a b) (Raised (Mode a b))

namespace KeepsMode

variable {α β : Type}

theorem answer (f : Nat → Except Exn α) : KeepsMode (answer f) := by
  intro a b c hc
  rw [Events.answer]
  cases f c.calls with
  | ok r => exact hc
  | error e => exact fun _ => hc

theorem onInstance (f : Instance → Except Failure (α × Instance)) : KeepsMode (onInstance f) := by
  intro a b c hc
  rw [Events.onInstance]
  cases f c.inst with
  | ok r => exact hc
  | error e => exact fun _ => hc

theorem closeEndpoint (s : Services) (ep : Endpoint) : KeepsMode (closeEndpoint s ep) := by
  intro a b c hc
  rw [Events.closeEndpoint]
  cases h : s.close ep c.calls c.inst with
  | mk r inst =>
      cases r with
      | ok r => exact hc
      | error e => exact fun _ => hc

theorem pure (r : α) : KeepsMode (Pure.pure r) := fun _ _ => .pure fun _ h => h

theorem stop (e : Failure) : KeepsMode (Act.stop e : Op α) := fun _ _ => .stop fun _ h _ => h

theorem bind {x : Op α} {f : α → Op β} (hx : KeepsMode x) (hf : ∀ r, KeepsMode (f r)) :
    KeepsMode (x >>= f) := fun a b => (hx a b).bind fun r => hf r a b

theorem ite {p : Prop} [Decidable p] {x y : Op α} (hx : KeepsMode x) (hy : KeepsMode y) :
    KeepsMode (if p then x else y) := by
  split
  · exact hx
  · exact hy

theorem attachHandler (s : Services) (notify : Option Handler) (ep : Endpoint) :
    KeepsMode (attachHandler s notify ep) :=
  (answer _).bind fun _ => onInstance _

end KeepsMode

theorem lock_spec (a b : Bool) (exits : Failure → Cpu → Prop) :
    Act.Spec (Mode a b) lock (fun _ => Mode false a) exits := by
  refine .modify fun c hc => ?_
  obtain ⟨rfl, rfl⟩ := hc
  cases h : c.enabled with
  | true => simp [Mode]
  | false => simp [Mode]

theorem unlock_spec (s : Services) (a b : Bool) (exits : Failure → Cpu → Prop) :
    Act.Spec (Mode a b) (unlock s) (fun _ => Mode (a || b) b) exits := by
  refine .modify fun c hc => ?_
  obtain ⟨rfl, rfl⟩ := hc
  cases h : c.reenable with
  | true =>
      simp only [if_true, Bool.or_true]
      split <;> simp [Mode]
  | false => simp [Mode, h]

/-- The state in which the body runs. -/
def locked (c : Cpu) : Cpu := { c with enabled := false, reenable := c.enabled }

/-- The operation leaves the mode as it found it, when it leaves. -/
def PreservesAt {α : Type} (x : Op α) (c : Cpu) : Prop :=
  Act.Ended (fun _ => Mode c.enabled c.reenable) (Raised (Mode c.enabled c.reenable)) (x c)

theorem withLock_eq {α : Type} (s : Services) (body : Op α) (c : Cpu) :
    withLock s body c = ((do let a ← body; unlock s; return a : Op α) (locked c)).map id
      fun c' => { c' with reenable := c.reenable } := by
  have hlock : lock { c with reenable := false } = (.ok (), locked c) := by
    rw [lock, Act.modify, locked]
    cases c.enabled <;> simp
  rw [withLock, Act.bind_ok hlock]
  rfl

/-- **The scope of the lock**: the body may return with the lock or without it, and if it
raises then without it. -/
theorem withLock_preservesAt {α : Type} (s : Services) {body : Op α} {c : Cpu}
    (h : Act.Ended (fun _ c' => Mode false c.enabled c' ∨ Mode c.enabled c.enabled c')
      (Raised fun c' => c'.enabled = c.enabled) (body (locked c))) :
    PreservesAt (withLock s body) c := by
  have hdestroy : Act.Spec (fun c' => Mode false c.enabled c' ∨ Mode c.enabled c.enabled c')
      (unlock s) (fun _ => Mode c.enabled c.enabled) (Raised fun c' => c'.enabled = c.enabled) := by
    rintro c' (hc | hc)
    · simpa using unlock_spec s false c.enabled (Raised fun c' => c'.enabled = c.enabled) c' hc
    · simpa using unlock_spec s c.enabled c.enabled (Raised fun c' => c'.enabled = c.enabled) c' hc
  have hbody : Act.Spec (fun c' => c' = locked c) body
      (fun _ c' => Mode false c.enabled c' ∨ Mode c.enabled c.enabled c')
      (Raised fun c' => c'.enabled = c.enabled) := by
    rintro c' rfl
    exact h
  have hreturn : ∀ r : α, Act.Spec (Mode c.enabled c.enabled) (pure r : Op α)
      (fun _ => Mode c.enabled c.enabled) (Raised fun c' => c'.enabled = c.enabled) :=
    fun _ => .pure fun _ hc => hc
  have hended := (hbody.bind fun r => hdestroy.bind fun _ => hreturn r) _ rfl
  rw [PreservesAt, withLock_eq]
  revert hended
  generalize (do let a ← body; unlock s; return a : Op α) (locked c) = out
  intro hended
  obtain ⟨r, c'⟩ := out
  cases r with
  | ok a => exact ⟨hended.1, rfl⟩
  | error x => exact fun hx => ⟨hended hx, rfl⟩

/-- A body that raises with the lock leaves activations off. -/
theorem withLock_raises {α : Type} (s : Services) {body : Op α} {c c' : Cpu} {e : Failure}
    (h : body (locked c) = (.error e, c')) (he : e.isRaised = true) (hoff : c'.enabled = false)
    (hon : c.enabled = true) : ¬ PreservesAt (withLock s body) c := by
  rw [PreservesAt, withLock_eq, Act.bind_error h]
  intro hended
  have henabled : c'.enabled = c.enabled := (hended he).1
  rw [hoff, hon] at henabled
  cases henabled

theorem withLock_spec {α : Type} (s : Services) {body : Op α} {e : Bool} (b : Bool)
    (h : Act.Spec (Mode false e) body (fun _ c => Mode false e c ∨ Mode e e c)
      (Raised fun c => c.enabled = e)) :
    Act.Spec (Mode e b) (withLock s body) (fun _ => Mode e b) (Raised (Mode e b)) := by
  rintro c ⟨rfl, rfl⟩
  exact withLock_preservesAt s (h _ ⟨rfl, rfl⟩)

/-- **TRY and FINALLY**: the lock is given back on both ways out. -/
theorem tryUnlock_spec {α : Type} (s : Services) {body : Op α} (e : Bool) (h : KeepsMode body) :
    Act.Spec (Mode false e) (tryUnlock s body) (fun _ => Mode e e)
      (Raised fun c => c.enabled = e) := by
  refine (h false e).finally_ (fun _ => ?_) (fun x hx => ?_) ?_
  · simpa using unlock_spec s false e (Raised fun c => c.enabled = e)
  · refine Act.Spec.conseq (unlock_spec s false e (Raised fun c => c.enabled = e))
      (fun c hc => hc hx) (fun _ c hc => ?_) fun _ _ h => h
    intro _
    simpa using hc.1
  · intro x c hx _ hr
    rw [hx] at hr
    cases hr

/-! ## §4. The operations. -/

/-- The operation leaves the mode as it was. -/
def Preserves {α : Type} (x : Op α) : Prop :=
  ∀ e b, Act.Spec (Mode e b) x (fun _ => Mode e b) (Raised (Mode e b))

/-- A body that keeps the mode and does not raise. -/
theorem withLock_preserves {α : Type} (s : Services) {body : Op α}
    (h : ∀ e, Act.Spec (Mode false e) body (fun _ c => Mode false e c ∨ Mode e e c)
      (Raised fun c => c.enabled = e)) : Preserves (withLock s body) :=
  fun _ b => withLock_spec s b (h _)

theorem eventsDestroyChannel_preserves (s : Services) (channel : Endpoint) :
    Preserves (eventsDestroyChannel s channel) := by
  refine withLock_preserves s fun e => ?_
  refine (tryUnlock_spec s e ?_).conseq (fun _ hc => hc) (fun _ _ hc => .inr hc) fun _ _ h => h
  refine (KeepsMode.attachHandler s none channel).bind fun oldNotify => ?_
  split
  · exact .bind (.stop _) fun _ => .answer _
  · exact .answer _

theorem eventsCreateChannel_preserves (s : Services) : Preserves (eventsCreateChannel s) := by
  refine withLock_preserves s fun e => ?_
  refine (tryUnlock_spec s e ?_).conseq (fun _ hc => hc) (fun _ _ hc => .inr hc) fun _ _ h => h
  refine (KeepsMode.answer _).bind fun result => ?_
  refine (KeepsMode.attachHandler s none result).bind fun oldNotify => ?_
  split
  · exact .bind (.stop _) fun _ => .pure _
  · exact .pure _

theorem onInstance_spec {α : Type} {f : Instance → Except Failure (α × Instance)}
    {pre : Cpu → Prop} {post : α → Cpu → Prop} {P : Cpu → Prop}
    (hok : ∀ c a i, pre c → f c.inst = .ok (a, i) → post a { c with inst := i })
    (herr : ∀ i e, f i = .error e → e.isRaised = false) :
    Act.Spec pre (onInstance f) post (Raised P) := by
  intro c hc
  rw [onInstance]
  cases hf : f c.inst with
  | ok r => exact hok c r.1 r.2 hc hf
  | error e =>
      intro he
      rw [herr _ e hf] at he
      cases he

/-- The count is there, or that is a fault. -/
theorem getCount_spec (ec : Nat) {pre : Cpu → Prop} {P : Cpu → Prop} :
    Act.Spec pre (getCount ec) (fun count c => pre c ∧ c.inst.base.counts ec = some count)
      (Raised P) := by
  refine onInstance_spec (fun c count i hc h => ?_) fun i e h => ?_
  · cases hcount : c.inst.base.counts ec with
    | none => simp [Instance.count, hcount, Except.map] at h
    | some count' =>
        simp only [Instance.count, hcount, Except.map, Except.ok.injEq, Prod.mk.injEq] at h
        obtain ⟨rfl, rfl⟩ := h
        exact ⟨hc, hcount⟩
  · cases hcount : i.base.counts ec with
    | none =>
        simp only [Instance.count, hcount, Except.map, Except.error.injEq] at h
        rw [← h]
        rfl
    | some count' => simp [Instance.count, hcount, Except.map] at h

/-- Waiters are let run, or a link is null. -/
theorem unblock_spec (ec : Nat) (value : Value) (alerted : Bool) {pre : Cpu → Prop}
    {P : Cpu → Prop} :
    Act.Spec pre (unblock ec value alerted)
      (fun _ c => ∃ c₀ r, pre c₀ ∧ unblockEvent c₀.inst.base ec value alerted = .ok r ∧
        c = { c₀ with inst := { c₀.inst with base := r.2 } }) (Raised P) := by
  refine onInstance_spec (fun c woken i hc h => ?_) fun i e h => ?_
  · cases hrun : unblockEvent c.inst.base ec value alerted with
    | error f => simp [hrun] at h
    | ok r =>
        simp only [hrun, Except.ok.injEq, Prod.mk.injEq] at h
        obtain ⟨-, rfl⟩ := h
        exact ⟨c, r, hc, hrun, rfl⟩
  · cases hrun : unblockEvent i.base ec value alerted with
    | error f =>
        simp only [hrun, Except.error.injEq] at h
        rw [← h]
        rfl
    | ok r => simp [hrun] at h

/-- A part that only reads or writes. -/
theorem onInstance_ok {α : Type} (f : Instance → α × Instance) {pre : Cpu → Prop}
    {post : α → Cpu → Prop} {P : Cpu → Prop}
    (h : ∀ c, pre c → post (f c.inst).1 { c with inst := (f c.inst).2 }) :
    Act.Spec pre (onInstance fun i => .ok (f i)) post (Raised P) := h

theorem eventsAdvance_preserves (s : Services) (ec : Nat) (increment : Value) :
    Preserves (eventsAdvance s ec increment) := by
  refine withLock_preserves s fun e => ?_
  refine (getCount_spec ec).bind fun count => ?_
  refine Act.Spec.through (fun _ => Mode false e) (onInstance_ok _ fun c hc => hc.1) fun _ => ?_
  refine (unblock_spec ec _ false).bind fun _ => ?_
  refine Act.Spec.through (fun _ => Mode false e) (onInstance_ok _ ?_) fun ep => ?_
  · rintro c ⟨c₀, r, hc, -, rfl⟩
    exact hc
  refine .ite (fun _ => ?_) fun _ => .pure fun _ hc => .inl hc
  exact (tryUnlock_spec s e (.answer _)).conseq (fun _ hc => hc) (fun _ _ hc => .inr hc)
    fun _ _ h => h

theorem eventsTicket_preserves (s : Services) (seq : Nat) : Preserves (eventsTicket s seq) := by
  refine withLock_preserves s fun e c hc => ?_
  cases hseq : c.sequencers seq with
  | none =>
      intro h
      cases h
  | some v => exact .inl hc

theorem eventsDestroySequencer_preserves (s : Services) (seq : Nat) :
    Preserves (eventsDestroySequencer s seq) :=
  withLock_preserves s fun _ => .modify fun _ hc => .inl hc

theorem eventsQueryEndpoint_preserves (s : Services) (ec : Option Nat) :
    Preserves (eventsQueryEndpoint s ec) := by
  cases ec with
  | none => exact fun e b => .stop fun c hc _ => hc
  | some ec =>
      refine withLock_preserves s fun e => ?_
      refine (getCount_spec ec).bind fun count => ?_
      refine Act.Spec.through (fun _ => Mode false e) (onInstance_ok _ fun c hc => hc.1)
        fun ep => ?_
      refine (unlock_spec s false e _).bind fun _ => .pure fun c hc => .inr ?_
      simpa using hc

/-! ## §5. Operations that raise with the lock. -/

theorem allocate_ok {s : Services} {c : Cpu} (h : s.alloc c.calls = .ok true) :
    allocate s c = (.ok (), { c with calls := c.calls + 1 }) := by
  have hanswer : answer s.alloc c = (.ok true, { c with calls := c.calls + 1 }) := by
    rw [answer, h]
    rfl
  exact Act.bind_ok hanswer

theorem allocate_raises {s : Services} {c : Cpu} (h : s.alloc c.calls ≠ .ok true) :
    ∃ e : Failure, e.isRaised = true ∧
      allocate s c = (.error e, { c with calls := c.calls + 1 }) := by
  cases halloc : s.alloc c.calls with
  | error exn =>
      refine ⟨.raised exn, rfl, Act.bind_error ?_⟩
      rw [answer, halloc]
      rfl
  | ok room =>
      cases room with
      | true => exact absurd halloc h
      | false =>
          have hanswer : answer s.alloc c = (.ok false, { c with calls := c.calls + 1 }) := by
            rw [answer, halloc]
            rfl
          exact ⟨noResources, rfl, Act.bind_ok hanswer⟩

/-- Making something new preserves the mode unless the heap has no room for it. -/
theorem allocate_preservesAt_iff {α : Type} (s : Services) {make : Op α}
    (hmake : ∀ a b, Act.Spec (Mode a b) make (fun _ => Mode a b) fun _ _ => False) (c : Cpu) :
    PreservesAt (withLock s do allocate s; make) c ↔
      ¬ (c.enabled = true ∧ s.alloc c.calls ≠ .ok true) := by
  by_cases hroom : s.alloc c.calls = .ok true
  · refine iff_of_true (withLock_preservesAt s ?_) fun h => h.2 hroom
    rw [Act.bind_ok (allocate_ok (c := locked c) hroom)]
    exact (hmake false c.enabled _ ⟨rfl, rfl⟩).mono (fun _ _ hc => .inl hc) fun _ _ h => h.elim
  · obtain ⟨e, he, hrun⟩ := allocate_raises (c := locked c) hroom
    cases hon : c.enabled with
    | true =>
        refine iff_of_false ?_ fun h => h ⟨rfl, hroom⟩
        exact withLock_raises s (Act.bind_error hrun) he rfl hon
    | false =>
        refine iff_of_true (withLock_preservesAt s ?_) fun h => by cases h.1
        rw [Act.bind_error hrun]
        exact fun _ => hon.symm

/-- The dispatcher does not take the next handler of a count that is destroyed. -/
def Refused (s : Services) (ec : Nat) (c : Cpu) : Prop :=
  ∃ count r exn, c.inst.base.counts ec = some count ∧
    unblockEvent c.inst.base ec count.value true = .ok r ∧
    c.inst.ep ec ≠ nullEp ∧ c.inst.prevNotify ec = none ∧
    s.attach (c.inst.ep ec) c.calls = .error exn

theorem closeDown_preserves (s : Services) (ep : Endpoint) : Preserves (closeDown s ep) := by
  intro e b
  refine .ite (fun _ => ?_) fun _ => .pure fun _ hc => hc
  exact (KeepsMode.closeEndpoint s ep e b).bind fun _ => eventsDestroyChannel_preserves s ep e b

/-- Taking the handler out raises only at the head of the chain. -/
theorem unchain_spec (s : Services) {ep : Endpoint} {prev : Option Handler} (next : Option Handler)
    {e : Bool} {n : Nat}
    (h : e = true → ep ≠ nullEp → prev = none → ∀ exn, s.attach ep n ≠ .error exn) :
    Act.Spec (fun c => Mode false e c ∧ c.calls = n) (unchain s ep prev next)
      (fun _ => Mode false e) (Raised fun c => c.enabled = e) := by
  -- the null endpoint is not closed
  refine .ite (fun hep => ?_) fun _ => .pure fun _ hc => hc.1
  refine Act.Spec.through (fun _ => Mode false e) ?_ fun _ => ?_
  · -- the handler in front is told of the one behind
    cases prev with
    | some prev =>
        show Act.Spec _ (onInstance fun i => (i.setLinkAfter next prev).map ((), ·)) _ _
        refine onInstance_spec (fun c a i hc _ => hc.1) fun i x hx => ?_
        cases prev with
        | count ec =>
            cases hx
            rfl
        | other k => cases hx
    | none =>
        refine Act.Spec.through (fun _ => Mode false e) ?_ fun _ => .pure fun _ hc => hc
        -- the first of the chain is attached to the endpoint
        refine Act.Spec.through (fun _ => Mode false e) ?_ fun _ => onInstance_ok _ fun _ hc => hc
        rintro c ⟨hc, rfl⟩
        rw [answer]
        cases hattach : s.attach ep c.calls with
        | ok u => exact hc
        | error exn =>
            cases e with
            | true => exact absurd hattach (h rfl hep rfl exn)
            | false => exact fun _ => hc.1
  · -- and the handler behind of the one in front
    cases next with
    | some next =>
        show Act.Spec _ (onInstance fun i => (i.setLinkBefore prev next).map ((), ·)) _ _
        refine onInstance_spec (fun c a i hc _ => hc) fun i x hx => ?_
        cases next with
        | count ec =>
            cases hx
            rfl
        | other k => cases hx
    | none => exact .pure fun _ hc => hc

/-- What follows in `events_destroy` once the count is off its chain. -/
theorem finishDestroy_spec (s : Services) (ec : Nat) (ep : Endpoint) (e : Bool) :
    Act.Spec (Mode false e) (do unlock s; closeDown s ep; lock; freeCount ec : Op Unit)
      (fun _ => Mode false e) (Raised fun c => c.enabled = e) := by
  refine Act.Spec.through (fun _ => Mode e e) (by simpa using unlock_spec s false e _)
    fun _ => ?_
  refine Act.Spec.through (fun _ => Mode e e) ?_ fun _ => ?_
  · exact (closeDown_preserves s ep e e).conseq (fun _ hc => hc) (fun _ _ hc => hc)
      fun _ _ hc hx => (hc hx).1
  · exact (lock_spec e e _).bind fun _ => onInstance_ok _ fun _ hc => hc

/-- The chain up to where the handler is taken out. -/
theorem eventsDestroy_raises (s : Services) {ec : Nat} {c : Cpu} (h : Refused s ec c)
    (hon : c.enabled = true) : ¬ PreservesAt (eventsDestroy s ec) c := by
  obtain ⟨count, r, exn, hcount, hunblock, hep, hprev, hattach⟩ := h
  have hget : getCount ec (locked c) = (.ok count, locked c) := by
    rw [getCount, onInstance, locked, Instance.count]
    simp only [hcount]
    rfl
  have hwoken : unblock ec count.value true (locked c)
      = (.ok r.1, { locked c with inst := { c.inst with base := r.2 } }) := by
    rw [unblock, onInstance, locked]
    simp only [hunblock]
  let i : Instance := { c.inst with
    base := { r.2 with links := r.2.links.remove (.ecQueue ec) } }
  have hunchain : unchain s (i.ep ec) (i.prevNotify ec) (i.nextNotify ec) { locked c with inst := i }
      = (.error (.raised exn), { locked c with inst := i, calls := c.calls + 1 }) := by
    have hattach' : answer (s.attach (c.inst.ep ec)) { locked c with inst := i }
        = (.error (.raised exn), { locked c with inst := i, calls := c.calls + 1 }) := by
      rw [answer]
      simp only [locked, hattach]
      rfl
    rw [unchain, if_pos hep, hprev]
    exact Act.bind_error (Act.bind_error (Act.bind_error hattach'))
  refine @withLock_raises Unit s _ c { locked c with inst := i, calls := c.calls + 1 } (.raised exn)
    ?_ rfl rfl hon
  exact (Act.bind_ok hget).trans ((Act.bind_ok hwoken).trans ((Act.bind_ok rfl).trans
    (Act.bind_error hunchain)))

/-- **`events_destroy`** preserves the mode unless the dispatcher refuses. -/
theorem eventsDestroy_preservesAt_iff (s : Services) (ec : Nat) (c : Cpu) :
    PreservesAt (eventsDestroy s ec) c ↔ ¬ (c.enabled = true ∧ Refused s ec c) := by
  refine ⟨fun h ⟨hon, hrefused⟩ => eventsDestroy_raises s hrefused hon h, fun h => ?_⟩
  refine withLock_preservesAt s ?_
  have hbody : Act.Spec (fun c' => c' = locked c) (do
      let count ← getCount ec
      let _ ← unblock ec count.value true
      let (ep, prev, next) ← unlist ec
      unchain s ep prev next
      unlock s
      closeDown s ep
      lock
      freeCount ec : Op Unit) (fun _ => Mode false c.enabled)
      (Raised fun c' => c'.enabled = c.enabled) := by
    refine (getCount_spec ec).bind fun count => (unblock_spec ec _ true).bind fun _ => ?_
    refine Act.Spec.through (fun r c' => (Mode false c.enabled c' ∧ c'.calls = c.calls) ∧
      (c.enabled = true → r.1 ≠ nullEp → r.2.1 = none →
        ∀ exn, s.attach r.1 c.calls ≠ .error exn)) (onInstance_ok _ ?_) ?_
    · rintro c' ⟨c₀, r, ⟨rfl, hcount⟩, hunblock, rfl⟩
      refine ⟨⟨⟨rfl, rfl⟩, rfl⟩, fun hon hep hprev exn hattach => h ⟨hon, ?_⟩⟩
      exact ⟨count, r, exn, hcount, hunblock, hep, hprev, hattach⟩
    · rintro ⟨ep, prev, next⟩ c' ⟨hc, hok⟩
      exact (unchain_spec s next hok).bind (fun _ => finishDestroy_spec s ec ep c.enabled) c' hc
  exact (hbody (locked c) rfl).mono (fun _ _ hc => .inl hc) fun _ _ hx => hx

/-! ## §6. All operations with a lock. -/

/-- The operations that use a `vcpu_lock_t`, with their arguments. -/
inductive Operation where
  | create
  | destroy (ec : Nat)
  | advance (ec : Nat) (increment : Value)
  | createSequencer
  | destroySequencer (seq : Nat)
  | ticket (seq : Nat)
  | queryEndpoint (ec : Option Nat)
  | createChannel
  | destroyChannel (channel : Endpoint)

/-- What it answers is left out. -/
def discard {α : Type} (x : Op α) : Op Unit := do
  let _ ← x
  return ()

/-- The operation. -/
def Operation.perform (s : Services) : Operation → Op Unit
  | create => discard (eventsCreate s)
  | destroy ec => eventsDestroy s ec
  | advance ec increment => eventsAdvance s ec increment
  | createSequencer => discard (eventsCreateSequencer s)
  | destroySequencer seq => eventsDestroySequencer s seq
  | ticket seq => discard (eventsTicket s seq)
  | queryEndpoint ec => discard (eventsQueryEndpoint s ec)
  | createChannel => discard (eventsCreateChannel s)
  | destroyChannel channel => eventsDestroyChannel s channel

/-- The operation raises with the lock and outside of a TRY: there is no room for what is
made, or the dispatcher refuses. -/
def Operation.RaisesLocked (s : Services) (c : Cpu) : Operation → Prop
  | create => s.alloc c.calls ≠ .ok true
  | createSequencer => s.alloc c.calls ≠ .ok true
  | destroy ec => Refused s ec c
  | _ => False

theorem Preserves.at {α : Type} {x : Op α} (h : Preserves x) (c : Cpu) : PreservesAt x c :=
  h c.enabled c.reenable c ⟨rfl, rfl⟩

theorem preservesAt_discard {α : Type} {x : Op α} {c : Cpu} :
    PreservesAt (discard x) c ↔ PreservesAt x c := by
  rw [PreservesAt, PreservesAt]
  cases h : x c with
  | mk r c' =>
      cases r with
      | ok a =>
          rw [discard, Act.bind_ok h]
          exact Iff.rfl
      | error e =>
          rw [discard, Act.bind_error h]
          exact Iff.rfl

/-- **An operation leaves activations as it found them, unless they were on and it raises
with the lock**: for every state of the instance and all answers of code outside, on return
and on every exception. -/
theorem activations_preserved_iff (s : Services) (op : Operation) (c : Cpu) :
    PreservesAt (op.perform s) c ↔ ¬ (c.enabled = true ∧ op.RaisesLocked s c) := by
  cases op with
  | create =>
      have hmake : ∀ a b, Act.Spec (Mode a b) (onInstance fun i => .ok (newCount i))
          (fun _ => Mode a b) (fun _ _ => False) := fun a b c hc => hc
      exact preservesAt_discard.trans (allocate_preservesAt_iff s hmake c)
  | destroy ec => exact eventsDestroy_preservesAt_iff s ec c
  | advance ec increment =>
      exact iff_of_true ((eventsAdvance_preserves s ec increment).at c) And.right
  | createSequencer =>
      have hmake : ∀ a b, Act.Spec (Mode a b) newSequencer (fun _ => Mode a b)
          (fun _ _ => False) := fun a b c hc => hc
      exact preservesAt_discard.trans (allocate_preservesAt_iff s hmake c)
  | destroySequencer seq =>
      exact iff_of_true ((eventsDestroySequencer_preserves s seq).at c) And.right
  | ticket seq =>
      exact preservesAt_discard.trans (iff_of_true ((eventsTicket_preserves s seq).at c) And.right)
  | queryEndpoint ec =>
      exact preservesAt_discard.trans
        (iff_of_true ((eventsQueryEndpoint_preserves s ec).at c) And.right)
  | createChannel =>
      exact preservesAt_discard.trans
        (iff_of_true ((eventsCreateChannel_preserves s).at c) And.right)
  | destroyChannel channel =>
      exact iff_of_true ((eventsDestroyChannel_preserves s channel).at c) And.right

/-- Code outside when the heap is full. -/
def noRoom : Services where
  alloc _ := .ok false
  attach _ _ := .ok ()
  send _ _ _ := .ok ()
  allocateChannel _ := .ok 1
  releaseChannel _ _ := .ok ()
  close _ _ i := (.ok (), i)
  pending _ := false
  rfa _ i := i

/-- Two counts, and activations are on. -/
def running : Cpu := ⟨twoCounts, 0, fun _ => none, true, false, 0⟩

/-- Without room `events_create` raises and leaves activations off. -/
theorem create_leaves_activations_off :
    (∃ exn, (eventsCreate noRoom running).1 = .error (.raised exn)) ∧
      running.enabled = true ∧ (eventsCreate noRoom running).2.enabled = false ∧
      ¬ PreservesAt (Operation.create.perform noRoom) running := by
  refine ⟨⟨_, rfl⟩, rfl, rfl, fun h => ?_⟩
  have hmode : (eventsCreate noRoom running).2.enabled = true :=
    (preservesAt_discard.mp h (rfl : Failure.isRaised noResources = true)).1
  cases hmode

end Metta.Events
