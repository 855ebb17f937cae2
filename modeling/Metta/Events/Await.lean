/-
  Metta.Events.Await — `events_await` among other threads and a remote sender.

  A thread in `events_await` tests the count, enters the critical section,
  queries and acknowledges the channel until it is in step with it, tests
  again, and blocks.  In between others run: threads advance counts and call
  `events_await` when nobody is in the critical section, and the remote side
  moves the channel at any time.

    • `Pc`, `System`, `step` — the places of a thread, and one step,
    • `Moves` — values move forward, within half the circle,
    • `blocksOnEmpty`, `setsBack` — what a step can do wrong,
    • `await_means_reached` — runs without these return what was awaited.

  A thread that blocks leaves the processor to others.  It goes on when it was
  unblocked and nobody is in the critical section.  `destroy` alerts waiters;
  its memory is not given back while a thread that may go on needs it.
-/
import Metta.Events.Queues
import Metta.Machine.Trace

namespace Metta.Events.Await

open Metta.Machine

/-! ## §1. The places of a thread. -/

/-- What `query_channel` answers: the received and the acknowledged value. -/
abbrev Query := Value × Value

/-- Where a thread is in `events_await(ec, value)`. -/
inductive Pc where
  /-- It has not called yet. -/
  | idle
  /-- The first test has passed; the value is read again to return it. -/
  | passed (ec : Nat) (value : Value)
  /-- The first test has failed; it enters the critical section. -/
  | entering (ec : Nat) (value : Value)
  /-- In the loop, before `query_channel`. -/
  | querying (ec : Nat) (value : Value)
  /-- In the loop, before `ack`. -/
  | acking (ec : Nat) (value rxVal : Value)
  /-- At the second test; a receiving end has made this query last. -/
  | testing (ec : Nat) (value : Value) (query : Option Query)
  /-- In `block_yield`. -/
  | blocked (ec : Nat) (value : Value) (query : Option Query)
  /-- `thread_v1.alerted` was raised. -/
  | raised
  /-- It has returned `result` for `value`. -/
  | returned (value result : Value)
  | faulted (f : Fault)
  deriving DecidableEq, Repr

/-- The thread is not in `events_await`. -/
def Pc.outside : Pc → Bool
  | idle | raised | returned _ _ => true
  | _ => false

/-- The count that a thread in `events_await` uses. -/
def Pc.count : Pc → Option Nat
  | passed ec _ | entering ec _ | querying ec _ | acking ec _ _ | testing ec _ _
  | blocked ec _ _ => some ec
  | _ => none

/-- The instance, the channels of its counts and its threads. -/
structure System where
  inst : State
  /-- What `query_channel` of the count's endpoint answers now. -/
  channel : Nat → Query
  /-- Who is in the critical section. -/
  critical : Option Nat
  pc : Nat → Pc

/-- The thread goes on to `pc`. -/
def System.goto (s : System) (th : Nat) (pc : Pc) : System :=
  { s with pc := Function.update s.pc th pc }

/-- The thread leaves the critical section and goes on to `pc`. -/
def System.leave (s : System) (th : Nat) (pc : Pc) : System :=
  { s.goto th pc with critical := none }

/-! ## §2. The steps of `events_await`. -/

/-- `if (EC_LE(value, event_count->value))`. -/
def firstTest (s : System) (th ec : Nat) (value : Value) : System :=
  match s.inst.counts ec with
  | none => s.goto th (.faulted .noCount)
  | some count =>
      s.goto th (if ecLE value count.value then .passed ec value else .entering ec value)

/-- `return event_count->value`. -/
def readAgain (s : System) (th ec : Nat) (value : Value) : System :=
  match s.inst.counts ec with
  | none => s.goto th (.faulted .noCount)
  | some count => s.goto th (.returned value count.value)

/-- `enter_critical_section`, and the test of the endpoint's type. -/
def enter (s : System) (th ec : Nat) (value : Value) : System :=
  match s.inst.counts ec with
  | none => s.goto th (.faulted .noCount)
  | some count =>
      { s.goto th (if count.epType = .rx then .querying ec value else .testing ec value none) with
        critical := some th }

/-- The query loop ends: the value is there, or the channel will tell of the next. -/
def inStep (query : Query) (value : Value) : Bool := ecGT query.1 value || query.1 == query.2

/-- `query_channel`, and the end of the loop: the local value is updated and waiters that
may go are let run. -/
def query (s : System) (th ec : Nat) (value : Value) : System :=
  if inStep (s.channel ec) value then
    match s.inst.counts ec with
    | none => s.goto th (.faulted .noCount)
    | some count =>
        match unblockEvent (setValue s.inst ec count (s.channel ec).1) ec (s.channel ec).1 false with
        | .error f => s.goto th (.faulted f)
        | .ok (_, inst) => { s.goto th (.testing ec value (some (s.channel ec))) with inst }
  else s.goto th (.acking ec value (s.channel ec).1)

/-- `ack`. -/
def ack (s : System) (th ec : Nat) (value rxVal : Value) : System :=
  { s.goto th (.querying ec value) with
    channel := Function.update s.channel ec ((s.channel ec).1, rxVal) }

/-- The second test: `block_event`, or out of the critical section with the result. -/
def secondTest (s : System) (th ec : Nat) (value : Value) (query : Option Query) : System :=
  match s.inst.counts ec with
  | none => s.goto th (.faulted .noCount)
  | some count =>
      if ecGT value count.value then
        match blockEvent s.inst th (some ec) value forever .added with
        | .error f => s.goto th (.faulted f)
        | .ok inst => { s.leave th (.blocked ec value query) with inst }
      else s.leave th (.returned value count.value)

/-- `block_yield` comes back, and says whether the thread was alerted. -/
def resume (s : System) (th ec : Nat) (value : Value) : System :=
  if s.inst.alerted th then
    { s.goto th .raised with
      inst := { s.inst with alerted := Function.update s.inst.alerted th false } }
  else
    match s.inst.counts ec with
    | none => s.goto th (.faulted .noCount)
    | some count => s.goto th (.returned value count.value)

/-! ## §3. The system. -/

/-- What can happen. -/
inductive Event where
  /-- The thread calls `events_await(ec, value)`. -/
  | call (th ec : Nat) (value : Value)
  /-- A thread in `events_await` goes on. -/
  | go (th : Nat)
  /-- Another thread calls `events_advance`. -/
  | advance (ec : Nat) (increment : Value)
  /-- Another thread calls `events_destroy`. -/
  | destroy (ec : Nat)
  /-- The channel of a count moves. -/
  | remote (ec : Nat) (channel : Query)
  deriving DecidableEq, Repr

/-- The thread runs, and no other is in the critical section. -/
def System.runs (s : System) (th : Nat) : Bool :=
  decide (th < s.inst.nThreads) && s.inst.status th == .running &&
    (s.critical == none || s.critical == some th)

/-- A thread in `events_await` goes on. -/
def goOn (s : System) (th : Nat) : Option System :=
  match s.pc th with
  | .passed ec value => some (readAgain s th ec value)
  | .entering ec value => some (enter s th ec value)
  | .querying ec value => some (query s th ec value)
  | .acking ec value rxVal => some (ack s th ec value rxVal)
  | .testing ec value query => some (secondTest s th ec value query)
  | .blocked ec value _ => some (resume s th ec value)
  | _ => none

/-- **One step.** -/
def step (s : System) : Event → Option System
  | .call th ec value =>
      if s.runs th && (s.pc th).outside then some (firstTest s th ec value) else none
  | .go th => if s.runs th then goOn s th else none
  | .advance ec increment =>
      if s.critical = none then
        (advance s.inst ec increment).toOption.map fun r => { s with inst := r.2 }
      else none
  | .destroy ec =>
      if s.critical = none then
        (destroy s.inst ec).toOption.map fun r => { s with inst := r.2 }
      else none
  | .remote ec channel => some { s with channel := Function.update s.channel ec channel }

/-! ## §4. What is assumed, and what can go wrong. -/

/-- The value lies within half the circle from `base`. -/
def within (base v : Value) : Bool := decide ((v - base).toNat < 2 ^ 63)

/-- From `v` to `v'` is forward, within half the circle. -/
def forward (base v v' : Value) : Bool :=
  within base v' && decide ((v - base).toNat ≤ (v' - base).toNat)

/-- All values stay within half the circle from `base`, advances and the remote side move
forward, and a count that a thread may still read is not destroyed. -/
def moves (base : Value) (s : System) : Event → Bool
  | .call _ ec value => within base value && (s.inst.counts ec).isSome
  | .go _ => true
  | .advance ec increment =>
      match s.inst.counts ec with
      | none => true
      | some count => decide ((count.value - base).toNat + increment.toNat < 2 ^ 63)
  | .destroy ec =>
      (List.range s.inst.nThreads).all fun t =>
        (s.pc t).count != some ec || s.inst.status t != .running
  | .remote ec channel =>
      forward base (s.channel ec).1 channel.1 && forward base (s.channel ec).2 channel.2

/-- The thread is about to block on a count without waiters. -/
def blocksOnEmpty (s : System) : Event → Bool
  | .go th =>
      match s.pc th with
      | .testing ec value _ =>
          match s.inst.counts ec with
          | none => false
          | some count => ecGT value count.value && s.inst.links.isEmpty (.waitQueue ec)
      | _ => false
  | _ => false

/-- The thread is about to update the count to a received value that is behind the one it
has. -/
def setsBack (s : System) : Event → Bool
  | .go th =>
      match s.pc th with
      | .querying ec value =>
          match s.inst.counts ec with
          | none => false
          | some count =>
              inStep (s.channel ec) value && ecGT count.value (s.channel ec).1
      | _ => false
  | _ => false

/-- What `events_await` promises: it returns no less than was awaited, it blocks on a receiving
end only when the value queried last equals the acknowledged one, and it does not fault. -/
def Promise (s : System) (t : Nat) : Prop :=
  match s.pc t with
  | .returned value result => ecLE value result = true
  | .blocked ec _ query =>
      ∀ count, s.inst.counts ec = some count → count.epType = .rx → ∃ x, query = some (x, x)
  | .faulted _ => False
  | _ => True

/-- No thread is in `events_await` but the waiters of the queues `q`, which blocked as they
should. -/
structure Start (base : Value) (s : System) (q : Nat → List Nat) : Prop where
  queues : AllWaiting s.inst q
  waiters : ∀ ec, ∀ t ∈ q ec, ∃ query, s.pc t = .blocked ec (s.inst.waitValue t) query ∧
    s.inst.status t ≠ .running ∧ within base (s.inst.waitValue t) = true ∧ Promise s t
  others : ∀ t, (∀ ec, t ∉ q ec) → s.pc t = .idle
  values : ∀ ec count, s.inst.counts ec = some count → within base count.value = true
  channels : ∀ ec, within base (s.channel ec).1 = true

/-! ## §5. The invariant. -/

/-- The count has come to `value`. -/
def Reached (b : State) (ec : Nat) (value : Value) : Prop :=
  ∃ count, b.counts ec = some count ∧ ecLE value count.value = true

/-- The thread runs, and waits for a value of a count that exists. -/
structure Awaits (base : Value) (b : State) (t ec : Nat) (value : Value) : Prop where
  thread : t < b.nThreads
  running : b.status t = .running
  count : (b.counts ec).isSome
  inside : within base value = true

/-- The query was in step, and a receiving count is not behind it. -/
def Synced (base : Value) (b : State) (ec : Nat) (value : Value) (query : Option Query) : Prop :=
  ∀ count, b.counts ec = some count → count.epType = .rx →
    ∃ x, query = some x ∧ within base x.1 = true ∧ inStep x value = true ∧
      ecLE x.1 count.value = true

/-- A thread in `block_yield`: when it was let run, it was alerted or the value is there. -/
structure Blocks (base : Value) (b : State) (t ec : Nat) (value : Value) (query : Option Query) :
    Prop where
  thread : t < b.nThreads
  inside : within base value = true
  waits : b.waitValue t = value
  query : ∀ count, b.counts ec = some count → count.epType = .rx → ∃ x, query = some (x, x)
  woken : b.status t = .running → b.alerted t = true ∨ Reached b ec value

/-- What holds of a thread at each place. -/
def Sound (base : Value) (b : State) (t : Nat) : Pc → Prop
  | .idle | .raised => True
  | .passed ec value => Awaits base b t ec value ∧ Reached b ec value
  | .entering ec value => Awaits base b t ec value
  | .querying ec value => Awaits base b t ec value
  | .acking ec value _ => Awaits base b t ec value
  | .testing ec value query => Awaits base b t ec value ∧ Synced base b ec value query
  | .blocked ec value query => Blocks base b t ec value query
  | .returned value result => ecLE value result = true
  | .faulted _ => False

/-- The queues hold threads that are blocked, and every thread is as it should be. -/
structure Inv (base : Value) (s : System) (q : Nat → List Nat) : Prop where
  queues : AllWaiting s.inst q
  queued : ∀ ec, ∀ t ∈ q ec, s.inst.status t ≠ .running ∧
    ∃ value query, s.pc t = .blocked ec value query
  sound : ∀ t, Sound base s.inst t (s.pc t)
  values : ∀ ec count, s.inst.counts ec = some count → within base count.value = true
  channels : ∀ ec, within base (s.channel ec).1 = true

variable {base : Value} {b b' : State} {s s' : System} {q : Nat → List Nat} {th t ec : Nat}
  {value : Value} {pc : Pc} {count : EventCount}

theorem Sound.promise (h : Sound base s.inst t (s.pc t)) : Promise s t := by
  rw [Promise]
  cases hpc : s.pc t with
  | returned value result =>
      rw [hpc] at h
      exact h
  | blocked ec value query =>
      rw [hpc] at h
      exact h.query
  | faulted f =>
      rw [hpc] at h
      exact h
  | _ => trivial

theorem Start.inv (h : Start base s q) : Inv base s q := by
  refine ⟨h.queues, fun ec t ht => ?_, fun t => ?_, h.values, h.channels⟩
  · obtain ⟨query, hpc, hstatus, -⟩ := h.waiters ec t ht
    exact ⟨hstatus, _, query, hpc⟩
  · by_cases hin : ∃ ec, t ∈ q ec
    · obtain ⟨ec, ht⟩ := hin
      obtain ⟨query, hpc, hstatus, hwithin, hpromise⟩ := h.waiters ec t ht
      have hec : (s.inst.counts ec).isSome := by
        rw [Option.isSome_iff_ne_none]
        intro hnone
        rw [h.queues.gone ec hnone] at ht
        cases ht
      rw [Promise, hpc] at hpromise
      rw [hpc]
      exact ⟨(h.queues.queue ec hec).thread t ht, hwithin, rfl, hpromise,
        fun hrun => absurd hrun hstatus⟩
    · rw [h.others t fun ec ht => hin ⟨ec, ht⟩]
      trivial

/-! ## §6. The cyclic order. -/

theorem within_iff {v : Value} : within base v = true ↔ (v - base).toNat < 2 ^ 63 := by
  rw [within, decide_eq_true_iff]

theorem ecLE_trans {x y z : Value} (hx : within base x = true) (hy : within base y = true)
    (hz : within base z = true) (hxy : ecLE x y = true) (hyz : ecLE y z = true) :
    ecLE x z = true := by
  rw [within_iff] at hx hy hz
  rw [ecLE_iff hx hy] at hxy
  rw [ecLE_iff hy hz] at hyz
  rw [ecLE_iff hx hz]
  exact hxy.trans hyz

theorem within_base (base : Value) : within base base = true := by
  rw [within_iff, BitVec.sub_self]
  decide

/-- An advance within half the circle is forward. -/
theorem within_advance {v increment : Value}
    (h : (v - base).toNat + increment.toNat < 2 ^ 63) :
    within base (v + increment) = true ∧ ecLE v (v + increment) = true := by
  have hadd : (v + increment - base).toNat = (v - base).toNat + increment.toNat := by
    have heq : v + increment - base = (v - base) + increment := by grind
    rw [heq, BitVec.toNat_add, Nat.mod_eq_of_lt (by omega)]
  have hv : (v - base).toNat < 2 ^ 63 := by omega
  have hv' : (v + increment - base).toNat < 2 ^ 63 := by omega
  refine ⟨within_iff.mpr hv', ?_⟩
  rw [ecLE_iff hv hv']
  omega

/-! ## §7. What changes keep. -/

/-- Nothing that concerns the thread has changed. -/
theorem Sound.congr (h : Sound base b t pc) (hn : b'.nThreads = b.nThreads)
    (hcounts : b'.counts = b.counts) (hstatus : b'.status t = b.status t)
    (halerted : b'.alerted t = b.alerted t) (hwait : b'.waitValue t = b.waitValue t) :
    Sound base b' t pc := by
  have hawaits : ∀ {ec value}, Awaits base b t ec value → Awaits base b' t ec value :=
    fun h => ⟨hn ▸ h.thread, hstatus.trans h.running, hcounts ▸ h.count, h.inside⟩
  have hreached : ∀ {ec value}, Reached b ec value → Reached b' ec value := by
    intro ec value h
    rwa [Reached, hcounts]
  cases pc with
  | idle => trivial
  | raised => trivial
  | passed ec value => exact ⟨hawaits h.1, hreached h.2⟩
  | entering ec value => exact hawaits h
  | querying ec value => exact hawaits h
  | acking ec value rxVal => exact hawaits h
  | testing ec value query =>
      refine ⟨hawaits h.1, ?_⟩
      rw [Synced, hcounts]
      exact h.2
  | blocked ec value query =>
      refine ⟨hn ▸ h.thread, h.inside, hwait.trans h.waits, ?_, fun hrun => ?_⟩
      · rw [hcounts]
        exact h.query
      · rw [hstatus] at hrun
        rw [halerted]
        exact (h.woken hrun).imp_right hreached
  | returned value result => exact h
  | faulted f => exact h

/-- The count `ec` goes forward to `v`. -/
structure Grows (base : Value) (b b' : State) : Prop where
  forth : ∀ ec count, b.counts ec = some count → ∃ count', b'.counts ec = some count' ∧
    ecLE count.value count'.value = true
  back : ∀ ec count', b'.counts ec = some count' → ∃ count, b.counts ec = some count ∧
    count'.epType = count.epType ∧ ecLE count.value count'.value = true
  values : ∀ ec count, b.counts ec = some count → within base count.value = true
  values' : ∀ ec count', b'.counts ec = some count' → within base count'.value = true

theorem Grows.of_update {v : Value}
    (hvalues : ∀ ec count, b.counts ec = some count → within base count.value = true)
    (hcount : b.counts ec = some count) (hv : within base v = true)
    (hle : ecLE count.value v = true)
    (hcounts : b'.counts = Function.update b.counts ec (some { count with value := v })) :
    Grows base b b' := by
  have hself : b'.counts ec = some { count with value := v } := by
    rw [hcounts, Function.update_self]
  have hother : ∀ {ec'}, ec' ≠ ec → b'.counts ec' = b.counts ec' := fun h => by
    rw [hcounts, Function.update_of_ne h]
  -- only the value of `ec` changes, and it grows
  refine ⟨fun ec' count' h => ?_, fun ec' count' h => ?_, hvalues, fun ec' count' h => ?_⟩
  · by_cases heq : ec' = ec
    · subst heq
      rw [hcount] at h
      cases h
      exact ⟨_, hself, hle⟩
    · exact ⟨count', (hother heq).trans h, ecLE_refl _⟩
  · by_cases heq : ec' = ec
    · subst heq
      rw [hself] at h
      cases h
      exact ⟨count, hcount, rfl, hle⟩
    · rw [hother heq] at h
      exact ⟨count', h, rfl, ecLE_refl _⟩
  · by_cases heq : ec' = ec
    · subst heq
      rw [hself] at h
      cases h
      exact hv
    · exact hvalues ec' count' ((hother heq).symm.trans h)

theorem Grows.reached (G : Grows base b b') (hvalue : within base value = true)
    (h : Reached b ec value) : Reached b' ec value := by
  obtain ⟨count, hcount, hle⟩ := h
  obtain ⟨count', hcount', hle'⟩ := G.forth ec count hcount
  exact ⟨count', hcount', ecLE_trans hvalue (G.values ec count hcount)
    (G.values' ec count' hcount') hle hle'⟩

/-- **Counts go forward**, and threads are let run whose value is there. -/
theorem Sound.grow {woken : List Nat} (h : Sound base b t pc) (G : Grows base b b')
    (hn : b'.nThreads = b.nThreads) (hwait : b'.waitValue = b.waitValue)
    (R : Released b b' woken false)
    (hwoken : t ∈ woken → ∃ ec value query, pc = .blocked ec value query ∧ Reached b' ec value) :
    Sound base b' t pc := by
  have hrunning : b.status t = .running → b'.status t = .running := by
    intro hrun
    rw [R.status t]
    split
    · rfl
    · exact hrun
  have hawaits : ∀ {ec value}, Awaits base b t ec value → Awaits base b' t ec value := by
    intro ec value h
    obtain ⟨count, hcount⟩ := Option.isSome_iff_exists.mp h.count
    obtain ⟨count', hcount', -⟩ := G.forth ec count hcount
    exact ⟨hn ▸ h.thread, hrunning h.running, by rw [hcount']; rfl, h.inside⟩
  -- by where the thread is: what it waits for may be reached in the meantime, and stays so
  cases pc with
  | idle => trivial
  | raised => trivial
  | passed ec value => exact ⟨hawaits h.1, G.reached h.1.inside h.2⟩
  | entering ec value => exact hawaits h
  | querying ec value => exact hawaits h
  | acking ec value rxVal => exact hawaits h
  | testing ec value query =>
      refine ⟨hawaits h.1, fun count' hcount' hrx => ?_⟩
      obtain ⟨count, hcount, htype, hle⟩ := G.back ec count' hcount'
      obtain ⟨x, hx, hinside, hstep, hxle⟩ := h.2 count hcount (htype ▸ hrx)
      exact ⟨x, hx, hinside, hstep, ecLE_trans hinside (G.values ec count hcount)
        (G.values' ec count' hcount') hxle hle⟩
  | blocked ec value query =>
      refine ⟨hn ▸ h.thread, h.inside, by rw [hwait]; exact h.waits, fun count' hcount' hrx => ?_,
        fun hrun => ?_⟩
      · obtain ⟨count, hcount, htype, -⟩ := G.back ec count' hcount'
        exact h.query count hcount (htype ▸ hrx)
      · -- it was let run, so its value is reached; or it is as it was
        by_cases hmem : t ∈ woken
        · obtain ⟨ec', value', query', heq, hreached⟩ := hwoken hmem
          cases heq
          exact .inr hreached
        · rw [R.status t, if_neg hmem] at hrun
          rw [R.alerted t, if_neg fun h => by cases h.2]
          exact (h.woken hrun).imp_right (G.reached h.inside)
  | returned value result => exact h
  | faulted f => exact h

/-! ## §8. What steps keep. -/

/-- A thread that runs is in no queue. -/
theorem Inv.not_queued (I : Inv base s q) (hrun : s.runs th = true) (ec : Nat) : th ∉ q ec := by
  intro hmem
  obtain ⟨hstatus, -⟩ := I.queued ec th hmem
  simp only [System.runs, Bool.and_eq_true, beq_iff_eq] at hrun
  exact hstatus hrun.1.2

/-- **Only the thread goes on.** -/
theorem Inv.goto (I : Inv base s q) (hrun : s.runs th = true) (hinst : s'.inst = s.inst)
    (hpc : s'.pc = Function.update s.pc th pc)
    (hchannels : ∀ ec, within base (s'.channel ec).1 = true) (hsound : Sound base s.inst th pc) :
    Inv base s' q := by
  refine ⟨hinst ▸ I.queues, fun ec t ht => ?_, fun t => ?_, hinst ▸ I.values, hchannels⟩
  · have hne : t ≠ th := fun h => I.not_queued hrun ec (h ▸ ht)
    rw [hinst, hpc, Function.update_of_ne hne]
    exact I.queued ec t ht
  · rw [hinst, hpc]
    by_cases ht : t = th
    · rw [ht, Function.update_self]
      exact hsound
    · rw [Function.update_of_ne ht]
      exact I.sound t

/-- **A count goes forward**, in a synchronisation or an advance. -/
theorem Inv.grow {v : Value} (I : Inv base s q) (hcount : s.inst.counts ec = some count)
    (hv : within base v = true) (hle : ecLE count.value v = true) :
    ∃ woken b' q', unblockEvent (setValue s.inst ec count v) ec v false = .ok (woken, b') ∧
      Grows base s.inst b' ∧ Inv base { s with inst := b' } q' ∧
      b'.counts ec = some { count with value := v } ∧ b'.nThreads = s.inst.nThreads ∧
      ∀ t, s.inst.status t = .running → b'.status t = .running := by
  have A := I.queues.setValue hcount v
  have hsome : ((setValue s.inst ec count v).counts ec).isSome := by simp [setValue]
  obtain ⟨woken, b', hok, A', K, R, hmem⟩ := A.unblockEvent hsome v false
  have R' : Released s.inst b' woken false := ⟨R.status, R.alerted⟩
  have hself : b'.counts ec = some { count with value := v } := by
    rw [K.counts]
    exact Function.update_self ..
  -- what was reached stays reached, and the threads that are let run are those of this queue
  have G : Grows base s.inst b' := .of_update I.values hcount hv hle K.counts
  have hq : ∀ {t}, t ∈ woken → t ∈ q ec := fun h =>
    (List.takeWhile_sublist _).subset ((hmem _).mp h)
  refine ⟨woken, b', _, hok, G, ⟨A', fun ec' t ht => ?_, fun t => ?_, G.values', I.channels⟩,
    hself, K.nThreads, fun t hrun => ?_⟩
  · -- a thread that is still in a queue was not let run
    have hold : t ∈ q ec' ∧ t ∉ woken := by
      by_cases h : ec' = ec
      · subst h
        rw [Function.update_self] at ht
        refine ⟨(List.dropWhile_sublist _).subset ht, fun hw => ?_⟩
        have hnodup := (A.queue ec' hsome).nodup
        rw [← List.takeWhile_append_dropWhile (p := mayGo (setValue s.inst ec' count v) v false)
          (l := q ec'), List.nodup_append] at hnodup
        exact hnodup.2.2 t ((hmem t).mp hw) t ht rfl
      · rw [Function.update_of_ne h] at ht
        exact ⟨ht, fun hw => h (A.once t ec' ec ht (hq hw))⟩
    obtain ⟨hstatus, hpc⟩ := I.queued ec' t hold.1
    refine ⟨?_, hpc⟩
    show b'.status t ≠ .running
    rw [R'.status t, if_neg hold.2]
    exact hstatus
  · refine (I.sound t).grow G K.nThreads K.waitValue R' fun ht => ?_
    obtain ⟨-, value, query, hpc⟩ := I.queued ec t (hq ht)
    have hgo : mayGo (setValue s.inst ec count v) v false t = true :=
      List.mem_takeWhile_imp ((hmem t).mp ht)
    have hblocks := I.sound t
    rw [hpc] at hblocks
    refine ⟨ec, value, query, hpc, _, hself, ?_⟩
    rw [mayGo, Bool.false_or] at hgo
    rw [← hblocks.waits]
    exact hgo
  · rw [R'.status t]
    split
    · rfl
    · exact hrun

theorem System.runs_iff : s.runs th = true ↔
    th < s.inst.nThreads ∧ s.inst.status th = .running ∧
      (s.critical = none ∨ s.critical = some th) := by
  simp only [System.runs, Bool.and_eq_true, decide_eq_true_iff, beq_iff_eq, Bool.or_eq_true,
    and_assoc]

/-! ## §9. The steps. -/

theorem firstTest_inv (I : Inv base s q) (hrun : s.runs th = true)
    (hinside : within base value = true) (hsome : (s.inst.counts ec).isSome) :
    Inv base (firstTest s th ec value) q := by
  obtain ⟨hth, hstatus, -⟩ := System.runs_iff.mp hrun
  have hawaits : Awaits base s.inst th ec value := ⟨hth, hstatus, hsome, hinside⟩
  obtain ⟨count, hcount⟩ := Option.isSome_iff_exists.mp hsome
  rw [firstTest, hcount]
  refine I.goto hrun rfl rfl I.channels ?_
  split
  · next hle => exact ⟨hawaits, count, hcount, hle⟩
  · exact hawaits

theorem readAgain_inv (I : Inv base s q) (hrun : s.runs th = true)
    (hpc : s.pc th = .passed ec value) : Inv base (readAgain s th ec value) q := by
  have hsound := I.sound th
  rw [hpc] at hsound
  obtain ⟨-, count, hcount, hle⟩ := hsound
  rw [readAgain, hcount]
  exact I.goto hrun rfl rfl I.channels hle

theorem enter_inv (I : Inv base s q) (hrun : s.runs th = true)
    (hpc : s.pc th = .entering ec value) : Inv base (enter s th ec value) q := by
  have hsound : Awaits base s.inst th ec value := by
    have := I.sound th
    rwa [hpc] at this
  obtain ⟨count, hcount⟩ := Option.isSome_iff_exists.mp hsound.count
  rw [enter, hcount]
  refine I.goto hrun rfl rfl I.channels ?_
  split
  · exact hsound
  · next hne =>
    refine ⟨hsound, fun count' hcount' hrx => ?_⟩
    rw [hcount] at hcount'
    cases hcount'
    exact absurd hrx hne

/-- **The end of the query loop** moves the count to the received value, when that is not
behind. -/
theorem query_inv (I : Inv base s q) (hrun : s.runs th = true)
    (hpc : s.pc th = .querying ec value) (hback : setsBack s (.go th) = false) :
    ∃ q', Inv base (query s th ec value) q' := by
  have hsound : Awaits base s.inst th ec value := by
    have := I.sound th
    rwa [hpc] at this
  obtain ⟨count, hcount⟩ := Option.isSome_iff_exists.mp hsound.count
  rw [query]
  split
  · next hstep =>
    have hle : ecLE count.value (s.channel ec).1 = true := by
      simpa [setsBack, hpc, hcount, hstep, ecGT_eq] using hback
    obtain ⟨woken, b', q', hok, G, I', hself, hn, hrunning⟩ :=
      I.grow hcount (I.channels ec) hle
    rw [hcount]
    simp only [hok]
    obtain ⟨hth, hstatus, hcritical⟩ := System.runs_iff.mp hrun
    have hrun' : ({ s with inst := b' } : System).runs th = true :=
      System.runs_iff.mpr ⟨by rw [hn]; exact hth, hrunning th hstatus, hcritical⟩
    refine ⟨q', I'.goto hrun' rfl rfl I.channels ⟨⟨by rw [hn]; exact hth, hrunning th hstatus,
      by rw [hself]; rfl, hsound.inside⟩, fun count' hcount' _ => ?_⟩⟩
    rw [hself] at hcount'
    cases hcount'
    exact ⟨_, rfl, I.channels ec, hstep, ecLE_refl _⟩
  · exact ⟨q, I.goto hrun rfl rfl I.channels hsound⟩

theorem ack_inv (I : Inv base s q) (hrun : s.runs th = true) {rxVal : Value}
    (hpc : s.pc th = .acking ec value rxVal) : Inv base (ack s th ec value rxVal) q := by
  have hsound : Awaits base s.inst th ec value := by
    have := I.sound th
    rwa [hpc] at this
  refine I.goto hrun rfl rfl (fun ec' => ?_) hsound
  show within base (Function.update s.channel ec ((s.channel ec).1, rxVal) ec').1 = true
  by_cases h : ec' = ec
  · rw [h, Function.update_self]
    exact I.channels ec
  · rw [Function.update_of_ne h]
    exact I.channels ec'

/-- When the value is still ahead, the query that ended the loop was acknowledged. -/
theorem Synced.acknowledged {query : Option Query} (h : Synced base b ec value query)
    (hinside : within base value = true) (hcount : b.counts ec = some count)
    (hcv : within base count.value = true) (hgt : ecLE value count.value = false)
    (hrx : count.epType = .rx) : ∃ x, query = some (x, x) := by
  obtain ⟨⟨x, a⟩, hquery, hx, hstep, hle⟩ := h count hcount hrx
  simp only at hx hle
  rw [inStep, Bool.or_eq_true, ecGT_eq, Bool.not_eq_true', beq_iff_eq] at hstep
  rcases hstep with hlt | heq
  · rw [within_iff] at hinside hcv hx
    rw [ecLE_iff hx hcv] at hle
    have hnot : ¬ (value - base).toNat ≤ (count.value - base).toNat := by
      rw [← ecLE_iff hinside hcv, hgt]
      simp
    have hnot' : ¬ (x - base).toNat ≤ (value - base).toNat := by
      rw [← ecLE_iff hx hinside, hlt]
      simp
    omega
  · have hxa : x = a := heq
    subst hxa
    exact ⟨x, hquery⟩

/-- **The second test**: the thread blocks behind others, or returns. -/
theorem secondTest_inv {query : Option Query} (I : Inv base s q) (hrun : s.runs th = true)
    (hpc : s.pc th = .testing ec value query) (hempty : blocksOnEmpty s (.go th) = false) :
    ∃ q', Inv base (secondTest s th ec value query) q' := by
  have hsound : Awaits base s.inst th ec value ∧ Synced base s.inst ec value query := by
    have := I.sound th
    rwa [hpc] at this
  obtain ⟨hawaits, hsynced⟩ := hsound
  obtain ⟨count, hcount⟩ := Option.isSome_iff_exists.mp hawaits.count
  rw [secondTest, hcount]
  simp only
  -- the value is not reached: the thread goes into the queue
  split
  · next hgt =>
    have hnot := I.not_queued hrun
    have hq : q ec ≠ [] := by
      intro hnil
      have hlink : s.inst.links.isEmpty (.waitQueue ec) = false := by
        simpa [blocksOnEmpty, hpc, hcount, hgt] using hempty
      rw [((I.queues.queue ec hawaits.count).ring.isEmpty_iff).mpr (by rw [hnil]; rfl)] at hlink
      cases hlink
    obtain ⟨b', hok, A, hwait, hcounts, hn, halerted, hstatus⟩ :=
      I.queues.blockEvent hawaits.count hq hawaits.thread hnot value
    simp only [hok]
    refine ⟨_, A, fun ec' t ht => ?_, fun t => ?_, hcounts ▸ I.values, I.channels⟩
    · -- the thread itself, or one that was in a queue before
      by_cases hne : t = th
      · subst hne
        have hec : ec' = ec := by
          by_contra h
          rw [Function.update_of_ne h] at ht
          exact hnot ec' ht
        subst hec
        refine ⟨?_, value, query, Function.update_self ..⟩
        show b'.status t ≠ .running
        rw [hstatus, Function.update_self]
        exact Status.noConfusion
      · have hold : t ∈ q ec' := by
          by_cases h : ec' = ec
          · subst h
            rw [Function.update_self] at ht
            exact (mem_inserted.mp ht).resolve_left hne
          · rwa [Function.update_of_ne h] at ht
        obtain ⟨hblocked, value', query', hpc'⟩ := I.queued ec' t hold
        refine ⟨?_, value', query', (Function.update_of_ne hne ..).trans hpc'⟩
        show b'.status t ≠ .running
        rw [hstatus, Function.update_of_ne hne]
        exact hblocked
    · by_cases hne : t = th
      · subst hne
        show Sound base b' t (Function.update s.pc t _ t)
        rw [Function.update_self]
        refine ⟨by rw [hn]; exact hawaits.thread, hawaits.inside, by rw [hwait, Function.update_self],
          fun count' hcount' hrx => ?_, fun hrunning => ?_⟩
        · rw [hcounts, hcount] at hcount'
          cases hcount'
          have hgt' : ecLE value count.value = false := by simpa [ecGT_eq] using hgt
          exact hsynced.acknowledged hawaits.inside hcount (I.values ec count hcount) hgt' hrx
        · rw [hstatus, Function.update_self] at hrunning
          cases hrunning
      · show Sound base b' t (Function.update s.pc th _ t)
        rw [Function.update_of_ne hne]
        exact (I.sound t).congr hn hcounts (by rw [hstatus, Function.update_of_ne hne])
          (by rw [halerted]) (by rw [hwait, Function.update_of_ne hne])
  · -- reached in the meantime, and `await` goes on
    next hle =>
    refine ⟨q, I.goto hrun rfl rfl I.channels ?_⟩
    show ecLE value count.value = true
    simpa [ecGT_eq] using hle

/-- **A thread that was let run** raises, or the value is there. -/
theorem resume_inv {query : Option Query} (I : Inv base s q) (hrun : s.runs th = true)
    (hpc : s.pc th = .blocked ec value query) : Inv base (resume s th ec value) q := by
  have hsound : Blocks base s.inst th ec value query := by
    have := I.sound th
    rwa [hpc] at this
  obtain ⟨hth, hstatus, hcritical⟩ := System.runs_iff.mp hrun
  rw [resume]
  split
  · let b' : State := { s.inst with alerted := Function.update s.inst.alerted th false }
    have hne : ∀ {ec t}, t ∈ q ec → t ≠ th := fun ht h => I.not_queued hrun _ (h ▸ ht)
    refine ⟨I.queues.congr rfl rfl fun _ => rfl, fun ec' t ht => ?_, fun t => ?_, I.values,
      I.channels⟩
    · obtain ⟨hblocked, value', query', hpc'⟩ := I.queued ec' t ht
      exact ⟨hblocked, value', query', (Function.update_of_ne (hne ht) ..).trans hpc'⟩
    · by_cases ht : t = th
      · show Sound base b' t (Function.update s.pc th _ t)
        rw [ht, Function.update_self]
        trivial
      · show Sound base b' t (Function.update s.pc th _ t)
        rw [Function.update_of_ne ht]
        exact (I.sound t).congr rfl rfl rfl (Function.update_of_ne ht ..) rfl
  · next halerted =>
    obtain ⟨count, hcount, hle⟩ := (hsound.woken hstatus).resolve_left halerted
    rw [hcount]
    exact I.goto hrun rfl rfl I.channels hle

/-- What is sent out concerns no thread. -/
theorem Inv.sent (I : Inv base s q) (sent : List (Nat × Value)) :
    Inv base { s with inst := { s.inst with sent } } q where
  queues := I.queues.congr rfl rfl fun _ => rfl
  queued := I.queued
  sound t := (I.sound t).congr rfl rfl rfl rfl rfl
  values := I.values
  channels := I.channels

theorem advance_inv {increment : Value} {r : List Nat × State} (I : Inv base s q)
    (hmoves : moves base s (.advance ec increment) = true)
    (hok : advance s.inst ec increment = .ok r) : ∃ q', Inv base { s with inst := r.2 } q' := by
  cases hcount : s.inst.counts ec with
  | none =>
      rw [advance, hcount] at hok
      cases hok
  | some count =>
      have hlt : (count.value - base).toNat + increment.toNat < 2 ^ 63 := by
        simpa [moves, hcount] using hmoves
      obtain ⟨hv, hle⟩ := within_advance hlt
      obtain ⟨woken, b', q', hunblock, -, I', -⟩ := I.grow hcount hv hle
      rw [advance, hcount] at hok
      simp only [hunblock] at hok
      cases hok
      refine ⟨q', ?_⟩
      simp only
      split
      · exact I'.sent _
      · exact I'

/-- Waiters of a count that is destroyed are alerted; others do not need it. -/
theorem Sound.destroy {woken : List Nat} (h : Sound base b t pc) (hn : b'.nThreads = b.nThreads)
    (hwait : b'.waitValue = b.waitValue) (hcounts : b'.counts = Function.update b.counts ec none)
    (R : Released b b' woken true)
    (hguard : t < b.nThreads → pc.count ≠ some ec ∨ b.status t ≠ .running) :
    Sound base b' t pc := by
  have hother : ∀ {ec'}, ec' ≠ ec → b'.counts ec' = b.counts ec' := fun hne => by
    rw [hcounts, Function.update_of_ne hne]
  have hrunning : b.status t = .running → b'.status t = .running := by
    intro hrun
    rw [R.status t]
    split
    · rfl
    · exact hrun
  have hne : ∀ {ec' value}, Awaits base b t ec' value → pc.count = some ec' → ec' ≠ ec := by
    rintro ec' value h hpc rfl
    exact (hguard h.thread).elim (fun hno => hno hpc) fun hno => hno h.running
  have hawaits : ∀ {ec' value}, Awaits base b t ec' value → pc.count = some ec' →
      Awaits base b' t ec' value := fun h hpc =>
    ⟨hn ▸ h.thread, hrunning h.running, by rw [hother (hne h hpc)]; exact h.count, h.inside⟩
  -- a thread that is at another count does not notice; one that runs is at no destroyed count
  cases pc with
  | idle => trivial
  | raised => trivial
  | passed ec' value =>
      refine ⟨hawaits h.1 rfl, ?_⟩
      rw [Reached, hother (hne h.1 rfl)]
      exact h.2
  | entering ec' value => exact hawaits h rfl
  | querying ec' value => exact hawaits h rfl
  | acking ec' value rxVal => exact hawaits h rfl
  | testing ec' value query =>
      refine ⟨hawaits h.1 rfl, ?_⟩
      rw [Synced, hother (hne h.1 rfl)]
      exact h.2
  | blocked ec' value query =>
      refine ⟨hn ▸ h.thread, h.inside, by rw [hwait]; exact h.waits, fun count hcount hrx => ?_,
        fun hrun => ?_⟩
      · by_cases heq : ec' = ec
        · rw [hcounts, heq, Function.update_self] at hcount
          cases hcount
        · rw [hother heq] at hcount
          exact h.query count hcount hrx
      · -- let run by the destruction, with the alert
        by_cases hmem : t ∈ woken
        · rw [R.alerted t, if_pos ⟨hmem, rfl⟩]
          exact .inl rfl
        · rw [R.status t, if_neg hmem] at hrun
          have heq : ec' ≠ ec := by
            rintro rfl
            exact (hguard h.thread).elim (fun hno => hno rfl) fun hno => hno hrun
          rw [R.alerted t, if_neg fun hw => hmem hw.1, Reached, hother heq]
          exact h.woken hrun
  | returned value result => exact h
  | faulted f => exact h

theorem destroy_inv {r : List Nat × State} (I : Inv base s q)
    (hmoves : moves base s (.destroy ec) = true) (hok : destroy s.inst ec = .ok r) :
    ∃ q', Inv base { s with inst := r.2 } q' := by
  -- a count that is not there cannot be destroyed
  cases hcount : s.inst.counts ec with
  | none =>
      rw [destroy, hcount] at hok
      cases hok
  | some count =>
      obtain ⟨woken, b', hok', A, R, hmem, hn, hwait, hcounts⟩ := I.queues.destroy hcount
      rw [hok'] at hok
      cases hok
      have hguard : ∀ t < s.inst.nThreads,
          (s.pc t).count ≠ some ec ∨ s.inst.status t ≠ .running := by
        simpa [moves, List.all_eq_true] using hmoves
      refine ⟨_, A, fun ec' t ht => ?_, fun t => ?_, fun ec' count' hcount' => ?_, I.channels⟩
      · -- the threads of its queue are all let run
        have hne : ec' ≠ ec := by
          rintro rfl
          rw [Function.update_self] at ht
          cases ht
        rw [Function.update_of_ne hne] at ht
        have hnot : t ∉ woken := fun hw =>
          hne (I.queues.once t ec' ec ht ((hmem t).mp hw))
        obtain ⟨hstatus, hpc⟩ := I.queued ec' t ht
        refine ⟨?_, hpc⟩
        show b'.status t ≠ .running
        rw [R.status t, if_neg hnot]
        exact hstatus
      · exact (I.sound t).destroy hn hwait hcounts R (hguard t)
      · have hcount'' : b'.counts ec' = some count' := hcount'
        by_cases hne : ec' = ec
        · rw [hcounts, hne, Function.update_self] at hcount''
          cases hcount''
        · rw [hcounts, Function.update_of_ne hne] at hcount''
          exact I.values ec' count' hcount''

theorem remote_inv {channel : Query} (I : Inv base s q)
    (hmoves : moves base s (.remote ec channel) = true) :
    Inv base { s with channel := Function.update s.channel ec channel } q := by
  refine ⟨I.queues, I.queued, I.sound, I.values, fun ec' => ?_⟩
  show within base (Function.update s.channel ec channel ec').1 = true
  by_cases h : ec' = ec
  · rw [h, Function.update_self]
    simp only [moves, forward, Bool.and_eq_true] at hmoves
    exact hmoves.1.1
  · rw [Function.update_of_ne h]
    exact I.channels ec'

/-- **A thread in `events_await` goes on.** -/
theorem goOn_inv (I : Inv base s q) (hrun : s.runs th = true)
    (hempty : blocksOnEmpty s (.go th) = false) (hback : setsBack s (.go th) = false)
    (h : goOn s th = some s') : ∃ q', Inv base s' q' := by
  rw [goOn] at h
  cases hpc : s.pc th with
  | passed ec value =>
      rw [hpc] at h
      cases h
      exact ⟨q, readAgain_inv I hrun hpc⟩
  | entering ec value =>
      rw [hpc] at h
      cases h
      exact ⟨q, enter_inv I hrun hpc⟩
  | querying ec value =>
      rw [hpc] at h
      cases h
      exact query_inv I hrun hpc hback
  | acking ec value rxVal =>
      rw [hpc] at h
      cases h
      exact ⟨q, ack_inv I hrun hpc⟩
  | testing ec value query =>
      rw [hpc] at h
      cases h
      exact secondTest_inv I hrun hpc hempty
  | blocked ec value query =>
      rw [hpc] at h
      cases h
      exact ⟨q, resume_inv I hrun hpc⟩
  | idle | raised | returned value result | faulted f =>
      rw [hpc] at h
      cases h

/-- A step that moves values forward and does nothing wrong. -/
def fine (base : Value) (s : System) (e : Event) : Bool :=
  moves base s e && !blocksOnEmpty s e && !setsBack s e

/-- **One step** keeps the invariant. -/
theorem step_inv {e : Event} (I : Inv base s q) (hfine : fine base s e = true)
    (h : step s e = some s') : ∃ q', Inv base s' q' := by
  simp only [fine, Bool.and_eq_true, Bool.not_eq_true'] at hfine
  obtain ⟨⟨hmoves, hempty⟩, hback⟩ := hfine
  -- by the event; a step that is not possible leads nowhere
  cases e with
  | call th ec value =>
      simp only [step] at h
      split at h
      · next hcan =>
        cases h
        simp only [moves, Bool.and_eq_true] at hmoves hcan
        exact ⟨q, firstTest_inv I hcan.1 hmoves.1 hmoves.2⟩
      · cases h
  | go th =>
      simp only [step] at h
      split at h
      · next hrun => exact goOn_inv I hrun hempty hback h
      · cases h
  | advance ec increment =>
      simp only [step] at h
      split at h
      · cases hok : advance s.inst ec increment with
        | error f =>
            rw [hok] at h
            cases h
        | ok r =>
            rw [hok] at h
            cases h
            exact advance_inv I hmoves hok
      · cases h
  | destroy ec =>
      simp only [step] at h
      split at h
      · cases hok : destroy s.inst ec with
        | error f =>
            rw [hok] at h
            cases h
        | ok r =>
            rw [hok] at h
            cases h
            exact destroy_inv I hmoves hok
      · cases h
  | remote ec channel =>
      cases h
      exact ⟨q, remote_inv I hmoves⟩

/-! ## §10. Runs. -/

/-- **Await means reached**: in every run of steps of which none blocks on an empty queue and
none sets a count back, `events_await` of every thread keeps its promise. -/
theorem await_means_reached {base : Value} {q : Nat → List Nat} {s₀ s : System}
    {tr : List (System × Event)} (hstart : Start base s₀ q) (hrun : Trace step s₀ tr s)
    (hmoves : ∀ p ∈ tr, moves base p.1 p.2 = true)
    (hempty : ∀ p ∈ tr, blocksOnEmpty p.1 p.2 = false)
    (hback : ∀ p ∈ tr, setsBack p.1 p.2 = false) :
    (∀ t, Promise s t) ∧ ∀ p ∈ tr, ∀ t, Promise p.1 t := by
  have hstep : ∀ {s e s'}, (∃ q, Inv base s q) → fine base s e = true → step s e = some s' →
      ∃ q, Inv base s' q := fun ⟨_, I⟩ hfine h => step_inv I hfine h
  have hfine : ∀ p ∈ tr, fine base p.1 p.2 = true := fun p hp => by
    simp [fine, hmoves p hp, hempty p hp, hback p hp]
  have hinv := hrun.invariant ⟨q, hstart.inv⟩ hstep hfine
  refine ⟨fun t => ?_, fun p hp t => ?_⟩
  · obtain ⟨q, I⟩ := hinv.1
    exact (I.sound t).promise
  · obtain ⟨q, I⟩ := hinv.2 p hp
    exact (I.sound t).promise

/-- A local count without waiters, and a thread. -/
def alone : System := ⟨create (fresh 1) true, fun _ => (0, 0), none, fun _ => .idle⟩

/-- A receiving count, a thread that waits for it to come to 100, and two others. -/
def receiving : System :=
  let s := create (fresh 3) true
  { inst := { s with
      counts := Function.update s.counts 0 (some ⟨0, .rx⟩)
      links := s.links.insertBefore (.waitQueue 0) (.waitq 2)
      waitValue := Function.update s.waitValue 2 100
      status := Function.update s.status 2 (.blocked forever) }
    channel := fun _ => (0, 0)
    critical := none
    pc := Function.update (fun _ => .idle) 2 (.blocked 0 100 (some (0, 0))) }

theorem alone_counts (ec : Nat) :
    alone.inst.counts ec = if ec = 0 then some ⟨0, .none⟩ else none := by
  simp [alone, create, fresh, Function.update_apply]

theorem receiving_counts (ec : Nat) :
    receiving.inst.counts ec = if ec = 0 then some ⟨0, .rx⟩ else none := by
  simp [receiving, create, fresh, Function.update_apply]

theorem start_alone : Start 0 alone fun _ => [] := by
  have hthreads : alone.inst.nThreads = 1 := by decide +kernel
  refine ⟨⟨⟨[0], ⟨by decide, ?_⟩, fun ec hec => ?_⟩, fun ec hec => ?_, ?_, fun ec _ => rfl⟩, ?_,
    fun t _ => rfl, fun ec count hcount => ?_, fun ec => within_base 0⟩
  · exact ⟨⟨by decide +kernel, by decide +kernel⟩, by decide +kernel, by decide +kernel⟩
  · rw [alone_counts] at hec
    split at hec
    · next h => simp [h]
    · cases hec
  · rw [alone_counts] at hec
    split at hec
    · next h =>
      subst h
      refine ⟨⟨by decide, by decide +kernel, by decide +kernel⟩, ?_, fun t ht => nomatch ht⟩
      rw [hthreads]
      decide +kernel
    · cases hec
  · exact fun t ec ec' ht => nomatch ht
  · exact fun ec t ht => nomatch ht
  · rw [alone_counts] at hcount
    split at hcount
    · cases hcount
      decide +kernel
    · cases hcount

/-- The waiters of `receiving`. -/
def receivingQueue (ec : Nat) : List Nat := if ec = 0 then [2] else []

theorem start_receiving : Start 0 receiving receivingQueue := by
  have hthreads : receiving.inst.nThreads = 3 := by decide +kernel
  have hqueue : ∀ {ec t}, t ∈ receivingQueue ec → ec = 0 ∧ t = 2 := by
    intro ec t ht
    rw [receivingQueue] at ht
    split at ht
    · next h => exact ⟨h, List.mem_singleton.mp ht⟩
    · cases ht
  have hcount : ∀ {ec count}, receiving.inst.counts ec = some count → ec = 0 ∧ count = ⟨0, .rx⟩ := by
    intro ec count h
    rw [receiving_counts] at h
    split at h
    · next heq =>
      cases h
      exact ⟨heq, rfl⟩
    · cases h
  -- the parts in the order of their definition: lists, queues, threads, counts
  refine ⟨⟨⟨[0], ⟨by decide, ?_⟩, fun ec hec => ?_⟩, fun ec hec => ?_, fun t ec ec' ht ht' => ?_,
    fun ec hnone => ?_⟩, fun ec t ht => ?_, fun t ht => ?_, fun ec count h => ?_,
    fun ec => within_base 0⟩
  · exact ⟨⟨by decide +kernel, by decide +kernel⟩, by decide +kernel, by decide +kernel⟩
  · obtain ⟨count, h⟩ := Option.isSome_iff_exists.mp hec
    simp [(hcount h).1]
  · obtain ⟨count, h⟩ := Option.isSome_iff_exists.mp hec
    obtain ⟨rfl, -⟩ := hcount h
    refine ⟨⟨by decide, ?_⟩, ?_, fun t ht => ?_⟩
    · exact ⟨⟨by decide +kernel, by decide +kernel⟩, by decide +kernel, by decide +kernel⟩
    · rw [hthreads]
      decide +kernel
    · rw [(hqueue ht).2, hthreads]
      decide
  · rw [(hqueue ht).1, (hqueue ht').1]
  · rw [receiving_counts] at hnone
    rw [receivingQueue]
    split at hnone
    · cases hnone
    · next h => rw [if_neg h]
  · -- the thread on the queue is the one that waits
    obtain ⟨rfl, rfl⟩ := hqueue ht
    refine ⟨some (0, 0), by decide +kernel, by decide +kernel, by decide +kernel, ?_⟩
    exact fun _ _ _ => ⟨0, rfl⟩
  · have hne : t ≠ 2 := by
      rintro rfl
      exact ht 0 (List.mem_singleton.mpr rfl)
    show Function.update (fun _ => Pc.idle) 2 _ t = .idle
    rw [Function.update_of_ne hne]
  · rw [(hcount h).2]
    exact within_base 0

/-- A thread waits for 5, acknowledges 3, blocks and is let run at 7. -/
theorem await_reached_on_channel :
    ∃ tr s, Trace step receiving tr s ∧ tr.length = 9 ∧ s.pc 0 = .returned 5 7 ∧
      (∀ t, Promise s t) ∧ ∀ p ∈ tr, ∀ t, Promise p.1 t := by
  let events : List Event := [.call 0 0 5, .go 0, .remote 0 (3, 0), .go 0, .go 0, .go 0, .go 0,
    .advance 0 4, .go 0]
  let checked := fun s e => if fine 0 s e then step s e else none
  have hend : (runList checked receiving events).map (fun s => s.pc 0) = some (.returned 5 7) := by
    decide +kernel
  obtain ⟨s, hrun, hpc⟩ := Option.map_eq_some_iff.mp hend
  obtain ⟨tr, htrace, hlabels⟩ := Trace.of_runList hrun
  obtain ⟨htrace, hfine⟩ := htrace.of_checked
  have hparts : ∀ p ∈ tr, (moves 0 p.1 p.2 = true ∧ blocksOnEmpty p.1 p.2 = false) ∧
      setsBack p.1 p.2 = false := fun p hp => by
    simpa only [fine, Bool.and_eq_true, Bool.not_eq_true'] using hfine p hp
  have hlength : tr.length = 9 := by
    have := congrArg List.length hlabels
    rwa [List.length_map, List.length_reverse] at this
  exact ⟨tr, s, htrace, hlength, hpc, await_means_reached start_receiving htrace
    (fun p hp => (hparts p hp).1.1) (fun p hp => (hparts p hp).1.2) fun p hp => (hparts p hp).2⟩

/-- The first thread to wait for a local count faults.  And when a receiving count was
advanced to 5, and another thread's await sets it back to 0, an await of 3 returns 0. -/
theorem await_not_reached :
    (∃ tr s, Start 0 alone (fun _ => []) ∧ Trace step alone tr s ∧
      (∀ p ∈ tr, moves 0 p.1 p.2 = true) ∧ s.pc 0 = .faulted .nullLink ∧ ¬ Promise s 0) ∧
    ∃ tr s, Start 0 receiving receivingQueue ∧ Trace step receiving tr s ∧
      (∀ p ∈ tr, moves 0 p.1 p.2 = true) ∧ s.pc 0 = .returned 3 0 ∧ ¬ Promise s 0 := by
  constructor
  · -- an await on an empty queue follows a null link
    let events : List Event := [.call 0 0 1, .go 0, .go 0]
    let checked := fun s e => if moves 0 s e then step s e else none
    have hend : (runList checked alone events).map (fun s => s.pc 0) = some (.faulted .nullLink) := by
      decide +kernel
    obtain ⟨s, hrun, hpc⟩ := Option.map_eq_some_iff.mp hend
    obtain ⟨tr, htrace, -⟩ := Trace.of_runList hrun
    obtain ⟨htrace, hmoves⟩ := htrace.of_checked
    refine ⟨tr, s, start_alone, htrace, hmoves, hpc, ?_⟩
    rw [Promise, hpc]
    exact id
  · -- another await sets the count back to 0 between the advance and the first one's return
    let events : List Event := [.advance 0 5, .call 0 0 3, .call 1 0 9, .go 1, .go 1, .go 1, .go 0]
    let checked := fun s e => if moves 0 s e then step s e else none
    have hend : (runList checked receiving events).map (fun s => s.pc 0)
        = some (.returned 3 0) := by
      decide +kernel
    obtain ⟨s, hrun, hpc⟩ := Option.map_eq_some_iff.mp hend
    obtain ⟨tr, htrace, -⟩ := Trace.of_runList hrun
    obtain ⟨htrace, hmoves⟩ := htrace.of_checked
    refine ⟨tr, s, start_receiving, htrace, hmoves, hpc, ?_⟩
    rw [Promise, hpc]
    show ¬ ecLE 3 0 = true
    decide

end Metta.Events.Await
