/-
  Metta.Events.Mutex — `mutex_t` of runtime/event_counts.h, and the
  sequencers it takes its tickets from.

  A mutex is an event count and a sequencer: `lock` awaits the next ticket,
  `unlock` advances the count by one.  The count starts at 1 and the tickets
  at 0, and `events_await` returns as soon as the count has come to the value
  awaited.

    • `Mutex`, `construct`, `step` — the threads between the calls, and one
      step of one of them,
    • `Rep` — the mutex is a gate with the counts of the code,
    • `at_most_two_hold` — two threads may be inside, and no more,
    • `third_lock_faults` — whoever would have to wait dereferences a null,
    • `second_lock_enters` — the mutex keeps nobody out who comes second.

  The steps of `events_await` are those of `Await.step`.  The mutex is used
  as it is meant: only a thread that holds it unlocks it, and not twice.
-/
import Metta.Events.Await
import Metta.Events.Instance
import Metta.Events.WakeUp
import Metta.Machine.TicketGate

namespace Metta.Events

open Metta.Machine Await

/-! ## §1. Sequencers. -/

/-- `events_create_sequencer`: a new sequencer. -/
def createSequencer : Value := 0

/-- `events_ticket`: the value before, and the sequencer after. -/
def ticket (seq : Value) : Value × Value := (seq, seq + 1)

/-- `events_read_seq`. -/
def readSeq (seq : Value) : Value := seq

/-! ## §2. The mutex and its threads. -/

/-- Where a thread is with the mutex. -/
inductive Mutex.Place where
  /-- It does not hold the mutex and is not about to. -/
  | out
  /-- In `lock()`: `s.ticket()` has answered `t`. -/
  | ticketed (t : Value)
  /-- It has called `e.await(t)`; when that has returned, it holds the mutex. -/
  | called
  deriving DecidableEq, Repr

/-- A `mutex_t`, with the instance and the threads. -/
structure Mutex where
  sys : System
  /-- `e.c` -/
  ec : Nat
  /-- `*s.s` -/
  seq : Value
  place : Nat → Mutex.Place

namespace Mutex

/-- The thread is back from `events_await`. -/
def returned : Pc → Bool
  | .returned _ _ => true
  | _ => false

/-- The thread holds the mutex. -/
def holds (s : Mutex) (th : Nat) : Bool :=
  s.place th == .called && returned (s.sys.pc th)

/-- The thread is at `place`. -/
def put (s : Mutex) (th : Nat) (place : Place) : Mutex :=
  { s with place := Function.update s.place th place }

/-- `mutex_t()` in an instance of `n` threads: `e()`, `s()`, `e.advance(1)`. -/
def construct (n : Nat) : Except Fault Mutex :=
  (advance (create (fresh n) true) (fresh n).nCounts 1).map fun r =>
    { sys := ⟨r.2, fun _ => (0, 0), none, fun _ => .idle⟩
      ec := (fresh n).nCounts
      seq := createSequencer
      place := fun _ => .out }

/-- What a thread may do. -/
inductive Move where
  /-- `lock()`, up to the answer of `s.ticket()`. -/
  | ticket (th : Nat)
  /-- `lock()` goes on: `e.await` is called. -/
  | await (th : Nat)
  /-- `e.await` goes on. -/
  | go (th : Nat)
  /-- `unlock()` by a thread that holds the mutex: `e.advance(1)`. -/
  | unlock (th : Nat)
  deriving DecidableEq, Repr

/-- **One step.** -/
def step (s : Mutex) : Move → Option Mutex
  | .ticket th =>
      if s.sys.runs th && s.place th == .out then
        some { s.put th (.ticketed (Events.ticket s.seq).1) with seq := (Events.ticket s.seq).2 }
      else none
  | .await th =>
      match s.place th with
      | .ticketed t =>
          (Await.step s.sys (.call th s.ec t)).map fun sys => { s.put th .called with sys }
      | _ => none
  | .go th =>
      if s.place th = .called then
        (Await.step s.sys (.go th)).map fun sys => { s with sys }
      else none
  | .unlock th =>
      if s.sys.runs th && s.holds th then
        (Await.step s.sys (.advance s.ec 1)).map fun sys => { s.put th .out with sys }
      else none

/-! ## §3. The gate of a mutex. -/

/-- The value of a number of tickets. -/
abbrev value (k : ℕ) : Value := BitVec.ofNat 64 k

/-- Where thread `th` stands: with a ticket before the gate, or through it. -/
inductive Stands (s : Mutex) (g : Gate Nat) (through : Finset Nat) (th : Nat) : Prop
  | out (hplace : s.place th = .out) (hpc : (s.sys.pc th).outside = true)
      (hw : g.waiting th = none) (hth : th ∉ through)
  | ticketed (k : ℕ) (hplace : s.place th = .ticketed (value k))
      (hpc : (s.sys.pc th).outside = true) (hw : g.waiting th = some k) (hth : th ∉ through)
  | entering (k : ℕ) (hplace : s.place th = .called) (hpc : s.sys.pc th = .entering s.ec (value k))
      (hw : g.waiting th = some k) (hth : th ∉ through)
  | testing (k : ℕ) (hplace : s.place th = .called)
      (hpc : s.sys.pc th = .testing s.ec (value k) none)
      (hw : g.waiting th = some k) (hth : th ∉ through)
  | faulted (k : ℕ) (f : Fault) (hplace : s.place th = .called) (hpc : s.sys.pc th = .faulted f)
      (hw : g.waiting th = some k) (hth : th ∉ through)
  | passed (t : Value) (hplace : s.place th = .called) (hpc : s.sys.pc th = .passed s.ec t)
      (hw : g.waiting th = none) (hth : th ∈ through)
  | inside (t r : Value) (hplace : s.place th = .called) (hpc : s.sys.pc th = .returned t r)
      (hw : g.waiting th = none) (hth : th ∈ through)

/-- **The mutex is a gate**: `through` are the threads that have passed and not unlocked; the
count starts at 1, and every unlock raises it. -/
structure Rep (s : Mutex) (g : Gate Nat) (through : Finset Nat) : Prop where
  gate : g.Inv
  queues : ∃ cs, Idle s.sys.inst cs ∧ s.ec ∈ cs
  count : s.sys.inst.counts s.ec = some ⟨value g.count, .none⟩
  seq : s.seq = value g.next
  stands : ∀ th, Stands s g through th
  balance : g.passes + 1 = g.count + through.card

variable {s s' s₀ : Mutex} {g : Gate Nat} {through : Finset Nat} {th u n : Nat} {m : Move}
  {tr : List (Mutex × Move)}

theorem ecLE_value {k n : ℕ} (hk : k < 2 ^ 63) (hn : n < 2 ^ 63) :
    ecLE (value k) (value n) = true ↔ k ≤ n := by
  have hto : ∀ {j : ℕ}, j < 2 ^ 63 → (value j - 0).toNat = j := by
    intro j hj
    show (BitVec.ofNat 64 j - 0#64).toNat = j
    rw [BitVec.sub_zero, BitVec.toNat_ofNat]
    exact Nat.mod_eq_of_lt (by omega)
  have hk' : (value k - 0).toNat < 2 ^ 63 := by rw [hto hk]; exact hk
  have hn' : (value n - 0).toNat < 2 ^ 63 := by rw [hto hn]; exact hn
  rw [ecLE_iff hk' hn', hto hk, hto hn]

theorem value_succ (k : ℕ) : value k + 1 = value (k + 1) := by
  rw [value, value, BitVec.ofNat_add]
  rfl

/-- What a thread that stands still is told by: its place, its program counter and its ticket. -/
theorem Stands.congr {g' : Gate Nat} {through' : Finset Nat} (h : Stands s g through u)
    (hec : s'.ec = s.ec) (hplace : s'.place u = s.place u) (hpc : s'.sys.pc u = s.sys.pc u)
    (hw : g'.waiting u = g.waiting u) (hmem : u ∈ through' ↔ u ∈ through) :
    Stands s' g' through' u := by
  cases h with
  | out h1 h2 h3 h4 =>
      exact .out (hplace.trans h1) (hpc ▸ h2) (hw.trans h3) (fun h => h4 (hmem.mp h))
  | ticketed k h1 h2 h3 h4 =>
      exact .ticketed k (hplace.trans h1) (hpc ▸ h2) (hw.trans h3) (fun h => h4 (hmem.mp h))
  | entering k h1 h2 h3 h4 =>
      exact .entering k (hplace.trans h1) (hec ▸ hpc.trans h2) (hw.trans h3)
        (fun h => h4 (hmem.mp h))
  | testing k h1 h2 h3 h4 =>
      exact .testing k (hplace.trans h1) (hec ▸ hpc.trans h2) (hw.trans h3)
        (fun h => h4 (hmem.mp h))
  | faulted k f h1 h2 h3 h4 =>
      exact .faulted k f (hplace.trans h1) (hpc.trans h2) (hw.trans h3) (fun h => h4 (hmem.mp h))
  | passed t h1 h2 h3 h4 =>
      exact .passed t (hplace.trans h1) (hec ▸ hpc.trans h2) (hw.trans h3) (hmem.mpr h4)
  | inside t r h1 h2 h3 h4 =>
      exact .inside t r (hplace.trans h1) (hpc.trans h2) (hw.trans h3) (hmem.mpr h4)

/-- A thread that is out has no ticket. -/
theorem Stands.of_out (h : Stands s g through u) (hplace : s.place u = .out) :
    (s.sys.pc u).outside = true ∧ g.waiting u = none ∧ u ∉ through := by
  cases h with
  | out h1 h2 h3 h4 => exact ⟨h2, h3, h4⟩
  | _ => simp_all

/-- A thread with a ticket waits with it. -/
theorem Stands.of_ticketed {t : Value} (h : Stands s g through u)
    (hplace : s.place u = .ticketed t) :
    ∃ k, t = value k ∧ g.waiting u = some k ∧ u ∉ through := by
  cases h with
  | ticketed k h1 h2 h3 h4 =>
      rw [hplace, Place.ticketed.injEq] at h1
      exact ⟨k, h1, h3, h4⟩
  | _ => simp_all

/-- A thread that holds the mutex is through the gate. -/
theorem Stands.of_holds (h : Stands s g through u) (hholds : s.holds u = true) :
    (s.sys.pc u).outside = true ∧ g.waiting u = none ∧ u ∈ through := by
  obtain ⟨hplace, hpc⟩ := Bool.and_eq_true_iff.mp hholds
  have hplace := eq_of_beq hplace
  cases h with
  | inside t r h1 h2 h3 h4 =>
      rw [h2]
      exact ⟨rfl, h3, h4⟩
  | _ => simp_all [returned]

/-- The ticket of a thread that waits is smaller than the sequencer. -/
theorem Rep.lt_next (R : Rep s g through) {k : ℕ} (hw : g.waiting th = some k) : k < g.next := by
  obtain ⟨used, A⟩ := R.gate
  exact (A.fresh th k hw).1

/-- The threads through the gate are at most two. -/
theorem Rep.card_le (R : Rep s g through) : through.card ≤ 2 := by
  have hpasses := Gate.passes_le R.gate
  have hbalance := R.balance
  omega

/-! ## §4. The construction. -/

/-- **A new mutex** is open for one more than its count says. -/
theorem construct_rep (n : Nat) :
    ∃ s₀, construct n = .ok s₀ ∧ Rep s₀ (Gate.start Nat 1) ∅ := by
  obtain ⟨cs, I⟩ := (Idle.fresh_idle n).create true
  have hcount : (create (fresh n) true).counts (fresh n).nCounts = some ⟨0#64, .none⟩ := by
    simp [create, fresh]
  have hec : (fresh n).nCounts ∈ cs := by
    rw [I.live, hcount]
    rfl
  have I' := I.setValue hec ⟨0#64, .none⟩ (0#64 + 1)
  have hadvance : advance (create (fresh n) true) (fresh n).nCounts 1
      = .ok ([], setValue (create (fresh n) true) (fresh n).nCounts ⟨0#64, .none⟩ (0#64 + 1)) := by
    simp only [advance, hcount]
    rw [I'.unblockEvent_eq hec]
    rfl
  use { sys := ⟨setValue (create (fresh n) true) (fresh n).nCounts ⟨0#64, .none⟩ (0#64 + 1),
          fun _ => (0, 0), none, fun _ => .idle⟩
        ec := (fresh n).nCounts, seq := createSequencer, place := fun _ => .out }
  constructor
  · rw [construct, hadvance]
    rfl
  · refine ⟨Gate.inv_start 1, ⟨cs, I', hec⟩, ?_, rfl, ?_, rfl⟩
    · show (Events.setValue _ _ _ _).counts _ = _
      simp [Events.setValue, value, Gate.start]
    · exact fun th => .out rfl rfl rfl (Finset.notMem_empty th)

/-! ## §5. The steps keep the gate. -/

/-- `s.ticket()` hands out the next number. -/
theorem ticket_rep (R : Rep s g through) (h : step s (.ticket th) = some s') :
    Rep s' (g.take th) through := by
  simp only [step] at h
  split at h
  · next hrun =>
    have hplace : s.place th = .out := by
      have := (Bool.and_eq_true_iff.mp hrun).2
      exact eq_of_beq this
    cases h
    have hold := (R.stands th).of_out hplace
    refine ⟨R.gate.take hold.2.1, R.queues, R.count, ?_, ?_, R.balance⟩
    · show s.seq + 1 = value (g.next + 1)
      rw [R.seq, value_succ]
    · intro u
      by_cases hu : u = th
      · subst hu
        refine .ticketed g.next ?_ hold.1 ?_ hold.2.2
        · show Function.update s.place u (.ticketed s.seq) u = _
          rw [Function.update_self, R.seq]
        · exact Function.update_self ..
      · exact (R.stands u).congr rfl (Function.update_of_ne hu ..) rfl
          (Function.update_of_ne hu ..) Iff.rfl
  · cases h

/-- A step of `events_await` by a thread that stands before the gate and stays there. -/
theorem Rep.stay {sys : System} {place : Place} (R : Rep s g through)
    (hinst : sys.inst = s.sys.inst) (hpc : ∀ u ≠ th, sys.pc u = s.sys.pc u)
    (hstands : Stands { s.put th place with sys } g through th) :
    Rep { s.put th place with sys } g through := by
  refine ⟨R.gate, ?_, ?_, R.seq, ?_, R.balance⟩
  · show ∃ cs, Idle sys.inst cs ∧ s.ec ∈ cs
    rw [hinst]
    exact R.queues
  · show sys.inst.counts s.ec = _
    rw [hinst]
    exact R.count
  · intro u
    by_cases hu : u = th
    · rw [hu]
      exact hstands
    · exact (R.stands u).congr rfl (Function.update_of_ne hu ..) (hpc u hu) rfl Iff.rfl

/-- A step of `events_await` by which a thread gets through the gate. -/
theorem Rep.enter {sys : System} {place : Place} {k : ℕ} (R : Rep s g through)
    (hw : g.waiting th = some k) (hk : k ≤ g.count) (hth : th ∉ through)
    (hinst : sys.inst = s.sys.inst) (hpc : ∀ u ≠ th, sys.pc u = s.sys.pc u)
    (hstands : Stands { s.put th place with sys } (g.pass th) (insert th through) th) :
    Rep { s.put th place with sys } (g.pass th) (insert th through) := by
  refine ⟨R.gate.pass hw hk, ?_, ?_, R.seq, ?_, ?_⟩
  · show ∃ cs, Idle sys.inst cs ∧ s.ec ∈ cs
    rw [hinst]
    exact R.queues
  · show sys.inst.counts s.ec = _
    rw [hinst]
    exact R.count
  · intro u
    by_cases hu : u = th
    · rw [hu]
      exact hstands
    · refine (R.stands u).congr rfl (Function.update_of_ne hu ..) (hpc u hu)
        (Function.update_of_ne hu ..) ?_
      rw [Finset.mem_insert]
      exact or_iff_right hu
  · have hbalance := R.balance
    rw [Finset.card_insert_of_notMem hth]
    show g.passes + 1 + 1 = g.count + (through.card + 1)
    omega

/-- `e.await` is called: the first test. -/
theorem await_rep (R : Rep s g through) (hnext : g.next < 2 ^ 63) (hcount : g.count < 2 ^ 63)
    (h : step s (.await th) = some s') :
    ∃ g' through', Rep s' g' through' ∧ g'.next = g.next ∧ g'.count = g.count := by
  simp only [step] at h
  split at h
  · next t hplace =>
    obtain ⟨sys, hsys, rfl⟩ := Option.map_eq_some_iff.mp h
    simp only [Await.step, firstTest, R.count] at hsys
    split at hsys
    · cases hsys
      obtain ⟨k, rfl, hw, hth⟩ := (R.stands th).of_ticketed hplace
      by_cases hle : k ≤ g.count
      · have hec := (ecLE_value ((R.lt_next hw).trans hnext) hcount).mpr hle
        refine ⟨g.pass th, insert th through, ?_, rfl, rfl⟩
        refine R.enter hw hle hth rfl (fun u hu => Function.update_of_ne hu ..) ?_
        refine .passed (value k) (Function.update_self ..) ?_ (Function.update_self ..)
          (Finset.mem_insert_self ..)
        rw [if_pos hec]
        exact Function.update_self ..
      · have hec : ¬ecLE (value k) (value g.count) = true := by
          rw [ecLE_value ((R.lt_next hw).trans hnext) hcount]
          exact hle
        refine ⟨g, through, ?_, rfl, rfl⟩
        refine R.stay rfl (fun u hu => Function.update_of_ne hu ..) ?_
        refine .entering k (Function.update_self ..) ?_ hw hth
        rw [if_neg hec]
        exact Function.update_self ..
    · cases hsys
  · cases h

/-- A thread that is not put elsewhere. -/
theorem put_self (hplace : s.place th = .called) : s.put th .called = s := by
  show { s with place := Function.update s.place th .called } = s
  rw [← hplace, Function.update_eq_self]

/-- `e.await` goes on. -/
theorem go_rep (R : Rep s g through) (hnext : g.next < 2 ^ 63) (hcount : g.count < 2 ^ 63)
    (h : step s (.go th) = some s') :
    ∃ g' through', Rep s' g' through' ∧ g'.next = g.next ∧ g'.count = g.count := by
  simp only [step] at h
  split at h
  · next hplace =>
    obtain ⟨sys, hsys, rfl⟩ := Option.map_eq_some_iff.mp h
    simp only [Await.step] at hsys
    split at hsys
    · have hput : ∀ sys : System, { s with sys } = { s.put th .called with sys } := by
        intro sys
        rw [put_self hplace]
      rw [hput]
      have hplace' : ∀ sys : System, ({ s.put th .called with sys } : Mutex).place th = .called :=
        fun _ => Function.update_self ..
      cases R.stands th with
      | out h1 => simp [hplace] at h1
      | ticketed k h1 => simp [hplace] at h1
      | entering k h1 h2 h3 h4 =>
          simp only [goOn, h2, Await.enter, R.count] at hsys
          cases hsys
          refine ⟨g, through, ?_, rfl, rfl⟩
          refine R.stay rfl (fun u hu => Function.update_of_ne hu ..) ?_
          exact .testing k (hplace' _) (Function.update_self ..) h3 h4
      | testing k h1 h2 h3 h4 =>
          simp only [goOn, h2, secondTest, R.count, ecGT_eq] at hsys
          by_cases hle : k ≤ g.count
          · -- the count has come to the ticket: the thread returns
            have hec := (ecLE_value ((R.lt_next h3).trans hnext) hcount).mpr hle
            rw [hec] at hsys
            cases hsys
            refine ⟨g.pass th, insert th through, ?_, rfl, rfl⟩
            refine R.enter h3 hle h4 rfl (fun u hu => Function.update_of_ne hu ..) ?_
            exact .inside _ _ (hplace' _) (Function.update_self ..) (Function.update_self ..)
              (Finset.mem_insert_self ..)
          · -- it has to wait, in a queue that is empty
            have hec : ecLE (value k) (value g.count) = false := by
              rw [← Bool.not_eq_true, ecLE_value ((R.lt_next h3).trans hnext) hcount]
              exact hle
            obtain ⟨cs, I, hmem⟩ := R.queues
            rw [hec, I.blockEvent_some hmem] at hsys
            cases hsys
            refine ⟨g, through, ?_, rfl, rfl⟩
            refine R.stay rfl (fun u hu => Function.update_of_ne hu ..) ?_
            exact .faulted k .nullLink (hplace' _) (Function.update_self ..) h3 h4
      | faulted k f h1 h2 =>
          simp only [goOn, h2] at hsys
          cases hsys
      | passed t h1 h2 h3 h4 =>
          simp only [goOn, h2, readAgain, R.count] at hsys
          cases hsys
          refine ⟨g, through, ?_, rfl, rfl⟩
          refine R.stay rfl (fun u hu => Function.update_of_ne hu ..) ?_
          exact .inside _ _ (hplace' _) (Function.update_self ..) h3 h4
      | inside t r h1 h2 =>
          simp only [goOn, h2] at hsys
          cases hsys
    · cases hsys
  · cases h

/-- `unlock()` raises the count. -/
theorem unlock_rep (R : Rep s g through) (h : step s (.unlock th) = some s') :
    Rep s' (g.raise 1) (through.erase th) := by
  simp only [step] at h
  split at h
  · next hrun =>
    have hholds := (Bool.and_eq_true_iff.mp hrun).2
    have hinside := (R.stands th).of_holds hholds
    obtain ⟨sys, hsys, rfl⟩ := Option.map_eq_some_iff.mp h
    obtain ⟨cs, I, hec⟩ := R.queues
    have I' := I.setValue hec ⟨value g.count, .none⟩ (value g.count + 1)
    simp only [Await.step, advance, R.count, I'.unblockEvent_eq hec] at hsys
    split at hsys
    · cases hsys
      refine ⟨R.gate.raise 1, ⟨cs, I', hec⟩, ?_, R.seq, ?_, ?_⟩
      · show Function.update s.sys.inst.counts s.ec (some ⟨value g.count + 1, .none⟩) s.ec
          = some ⟨value (g.count + 1), .none⟩
        rw [Function.update_self, value_succ]
      · intro u
        by_cases hu : u = th
        · subst hu
          exact .out (Function.update_self ..) hinside.1 hinside.2.1 (Finset.notMem_erase u through)
        · refine (R.stands u).congr rfl (Function.update_of_ne hu ..) rfl rfl ?_
          rw [Finset.mem_erase]
          exact and_iff_right hu
      · have hbalance := R.balance
        have hcard := Finset.card_erase_add_one hinside.2.2
        show g.passes + 1 = g.count + 1 + (through.erase th).card
        omega
    · cases hsys
  · cases h

/-! ## §6. Runs. -/

/-- **One step** keeps the gate, and hands out at most one ticket and raises the count by at
most one. -/
theorem step_rep (R : Rep s g through) (hnext : g.next < 2 ^ 63) (hcount : g.count < 2 ^ 63)
    (h : step s m = some s') :
    ∃ g' through', Rep s' g' through' ∧ g'.next ≤ g.next + 1 ∧ g'.count ≤ g.count + 1 := by
  cases m with
  | ticket th => exact ⟨_, _, ticket_rep R h, le_rfl, Nat.le_succ _⟩
  | await th =>
      obtain ⟨g', through', R', h1, h2⟩ := await_rep R hnext hcount h
      exact ⟨g', through', R', h1 ▸ Nat.le_succ _, h2 ▸ Nat.le_succ _⟩
  | go th =>
      obtain ⟨g', through', R', h1, h2⟩ := go_rep R hnext hcount h
      exact ⟨g', through', R', h1 ▸ Nat.le_succ _, h2 ▸ Nat.le_succ _⟩
  | unlock th => exact ⟨_, _, unlock_rep R h, Nat.le_succ _, le_rfl⟩

/-- **A run** keeps the gate, as long as the numbers do not come half around the circle. -/
theorem run_rep (hnew : construct n = .ok s₀) (hrun : Trace step s₀ tr s)
    (hlen : tr.length + 2 < 2 ^ 63) :
    ∃ g through, Rep s g through ∧ g.next ≤ tr.length ∧ g.count ≤ tr.length + 1 := by
  induction hrun with
  | nil =>
      obtain ⟨s₁, hs₁, R⟩ := construct_rep n
      rw [hnew] at hs₁
      cases hs₁
      exact ⟨_, _, R, le_rfl, le_rfl⟩
  | snoc _ hs ih =>
      rw [List.length_cons] at hlen ⊢
      obtain ⟨g, through, R, h1, h2⟩ := ih (by omega)
      obtain ⟨g', through', R', h3, h4⟩ := step_rep R (by omega) (by omega) hs
      exact ⟨g', through', R', by omega, by omega⟩

/-- **At most two threads hold the mutex**, in every interleaving of any number of threads. -/
theorem at_most_two_hold (hnew : construct n = .ok s₀) (hrun : Trace step s₀ tr s)
    (hlen : tr.length + 2 < 2 ^ 63) (holders : Finset Nat)
    (hholds : ∀ th ∈ holders, s.holds th = true) : holders.card ≤ 2 := by
  obtain ⟨g, through, R, -, -⟩ := run_rep hnew hrun hlen
  have hsub : holders ⊆ through := by
    intro th hth
    exact ((R.stands th).of_holds (hholds th hth)).2.2
  exact (Finset.card_le_card hsub).trans R.card_le

/-- The state that moves of threads lead to from a new mutex. -/
def reach (n : Nat) (moves : List Move) : Option Mutex :=
  (construct n).toOption.bind fun s₀ => runList step s₀ moves

theorem reach_trace {moves : List Move} (h : reach n moves = some s) :
    ∃ s₀ tr, construct n = .ok s₀ ∧ Trace step s₀ tr s ∧ tr.length = moves.length := by
  obtain ⟨s₀, hs₀, hrun⟩ := Option.bind_eq_some_iff.mp h
  obtain ⟨tr, htrace, hmap⟩ := Trace.of_runList hrun
  refine ⟨s₀, tr, ?_, htrace, ?_⟩
  · obtain ⟨s₁, hs₁, -⟩ := construct_rep n
    rw [hs₁] at hs₀ ⊢
    cases hs₀
    rfl
  · rw [← List.length_map (f := Prod.snd), hmap, List.length_reverse]

/-- Two threads lock, one after the other. -/
def bothLock : List Move := [.ticket 0, .await 0, .go 0, .ticket 1, .await 1, .go 1]

theorem at_most_two_hold_both :
    ∃ s, reach 2 bothLock = some s ∧ s.holds 0 = true ∧ s.holds 1 = true ∧
      ({0, 1} : Finset Nat).card ≤ 2 := by
  have hholds : (reach 2 bothLock).any (fun s => s.holds 0 && s.holds 1) = true := by
    decide +kernel
  obtain ⟨s, hs, hboth⟩ := (Option.any_eq_true ..).mp hholds
  obtain ⟨h0, h1⟩ := Bool.and_eq_true_iff.mp hboth
  obtain ⟨s₀, tr, hnew, hrun, hlen⟩ := reach_trace hs
  refine ⟨s, hs, h0, h1, at_most_two_hold hnew hrun (by rw [hlen]; decide) {0, 1} ?_⟩
  intro th hth
  rcases Finset.mem_insert.mp hth with rfl | hth
  · exact h0
  · rw [Finset.mem_singleton.mp hth]
    exact h1

/-- **Nobody waits for the mutex**: while two threads hold it, a third that comes to the second
test of `events_await` dereferences a null link. -/
theorem third_lock_faults {a b : Nat} {ec : Nat} {t : Value} {query : Option Await.Query}
    (hnew : construct n = .ok s₀) (hrun : Trace step s₀ tr s) (hlen : tr.length + 2 < 2 ^ 63)
    (ha : s.holds a = true) (hb : s.holds b = true) (hne : a ≠ b) (hplace : s.place th = .called)
    (htest : s.sys.pc th = .testing ec t query) (hstep : step s (.go th) = some s') :
    s'.sys.pc th = .faulted .nullLink := by
  obtain ⟨g, through, R, hnext, hcount⟩ := run_rep hnew hrun hlen
  -- the two fill the gate
  have hpair : ({a, b} : Finset Nat) ⊆ through := by
    intro u hu
    rcases Finset.mem_insert.mp hu with rfl | hu
    · exact ((R.stands _).of_holds ha).2.2
    · rw [Finset.mem_singleton.mp hu]
      exact ((R.stands _).of_holds hb).2.2
  have hcard := Finset.card_le_card hpair
  rw [Finset.card_pair hne] at hcard
  have hbalance := R.balance
  have hle := Gate.passes_le R.gate
  have hfull : g.passes = g.count + 1 := by omega
  simp only [step, if_pos hplace] at hstep
  obtain ⟨sys, hsys, rfl⟩ := Option.map_eq_some_iff.mp hstep
  simp only [Await.step] at hsys
  split at hsys
  · cases R.stands th with
    | testing k h1 h2 h3 h4 =>
        have hlt := Gate.closed_of_full R.gate hfull h3
        have hec : ecLE (value k) (value g.count) = false := by
          rw [← Bool.not_eq_true, ecLE_value ((R.lt_next h3).trans (by omega)) (by omega)]
          omega
        obtain ⟨cs, I, hmem⟩ := R.queues
        simp only [goOn, h2, secondTest, R.count, ecGT_eq, hec, I.blockEvent_some hmem] at hsys
        cases hsys
        exact Function.update_self ..
    | _ => simp_all
  · cases hsys

theorem third_lock_faults_three :
    ∃ s s', reach 3 (bothLock ++ [.ticket 2, .await 2, .go 2]) = some s ∧
      step s (.go 2) = some s' ∧ s'.sys.pc 2 = .faulted .nullLink := by
  have hall : (reach 3 (bothLock ++ [.ticket 2, .await 2, .go 2])).any (fun s =>
      s.holds 0 && s.holds 1 && s.place 2 == .called && s.sys.pc 2 == .testing 0 2 none &&
        (step s (.go 2)).isSome) = true := by
    decide +kernel
  obtain ⟨s, hs, h⟩ := (Option.any_eq_true ..).mp hall
  simp only [Bool.and_eq_true, beq_iff_eq] at h
  obtain ⟨⟨⟨⟨h0, h1⟩, hplace⟩, hpc⟩, hsome⟩ := h
  obtain ⟨s', hs'⟩ := Option.isSome_iff_exists.mp hsome
  obtain ⟨s₀, tr, hnew, hrun, hlen⟩ := reach_trace hs
  have hlt : tr.length + 2 < 2 ^ 63 := by rw [hlen]; decide
  exact ⟨s, s', hs, hs', third_lock_faults hnew hrun hlt h0 h1 (by decide) hplace hpc hs'⟩

/-- `lock()` by a thread whose ticket the count has come to: it takes the ticket, passes the
first test and returns. -/
theorem lock_enters (hcount : s.sys.inst.counts s.ec = some ⟨value g.count, .none⟩)
    (hec : ecLE s.seq (value g.count) = true) (hruns : s.sys.runs u = true)
    (hplace : s.place u = .out) (hout : (s.sys.pc u).outside = true) :
    ∃ s', runList step s [.ticket u, .await u, .go u] = some s' ∧ s'.holds u = true ∧
      ∀ v ≠ u, s'.holds v = s.holds v := by
  let s₁ : Mutex := { s.put u (.ticketed s.seq) with seq := s.seq + 1 }
  let s₂ : Mutex := { s₁.put u .called with sys := s.sys.goto u (.passed s.ec s.seq) }
  let s₃ : Mutex := { s₂ with sys := s₂.sys.goto u (.returned s.seq (value g.count)) }
  have h₁ : step s (.ticket u) = some s₁ := by
    simp only [step, hruns, hplace, beq_self_eq_true, Bool.and_self, if_true]
    rfl
  have h₂ : step s₁ (.await u) = some s₂ := by
    have hput : s₁.place u = .ticketed s.seq := Function.update_self ..
    have hcall : Await.step s₁.sys (.call u s₁.ec s.seq)
        = some (s.sys.goto u (.passed s.ec s.seq)) := by
      show (if s.sys.runs u && (s.sys.pc u).outside then some (firstTest s.sys u s.ec s.seq)
        else none) = _
      rw [hruns, hout]
      simp only [firstTest, hcount, hec, Bool.and_self, if_true]
    simp only [step, hput, hcall]
    rfl
  have h₃ : step s₂ (.go u) = some s₃ := by
    have hput : s₂.place u = .called := Function.update_self ..
    have hpc : s₂.sys.pc u = .passed s.ec s.seq := Function.update_self ..
    have hgo : Await.step s₂.sys (.go u) = some s₃.sys := by
      have hruns₂ : s₂.sys.runs u = true := hruns
      have hcount₂ : s₂.sys.inst.counts s.ec = some ⟨value g.count, .none⟩ := hcount
      simp only [Await.step, hruns₂, goOn, hpc, readAgain, hcount₂, if_true]
      rfl
    simp only [step, if_pos hput, hgo]
    rfl
  refine ⟨s₃, ?_, ?_, ?_⟩
  · simp only [runList, h₁, h₂, h₃, Option.bind_some]
  · have hput : s₃.place u = .called := Function.update_self ..
    have hpc : s₃.sys.pc u = .returned s.seq (value g.count) := Function.update_self ..
    simp only [holds, hput, hpc, returned, beq_self_eq_true, Bool.and_self]
  · intro v hv
    have hput : s₃.place v = s.place v := by
      show Function.update (Function.update s.place u _) u _ v = _
      rw [Function.update_of_ne hv, Function.update_of_ne hv]
    have hpc : s₃.sys.pc v = s.sys.pc v := by
      show Function.update (Function.update s.sys.pc u _) u _ v = _
      rw [Function.update_of_ne hv, Function.update_of_ne hv]
    rw [holds, hput, hpc]
    rfl

/-- **The mutex keeps nobody out who comes second**: when one thread holds it, or none, and the
others are out, then `lock()` of any other thread that runs returns, and the first still holds
the mutex. -/
theorem second_lock_enters {a b : Nat} (hnew : construct n = .ok s₀) (hrun : Trace step s₀ tr s)
    (hlen : tr.length + 2 < 2 ^ 63) (ha : s.place a = .out ∨ s.holds a = true)
    (hothers : ∀ th ≠ a, s.place th = .out) (hne : b ≠ a) (hb : s.sys.runs b = true) :
    ∃ s', runList step s [.ticket b, .await b, .go b] = some s' ∧ s'.holds b = true ∧
      s'.holds a = s.holds a := by
  obtain ⟨g, through, R, hnext, hcount⟩ := run_rep hnew hrun hlen
  have hnone : ∀ th, g.waiting th = none := by
    intro th
    by_cases hth : th = a
    · subst hth
      rcases ha with hout | hholds
      · exact ((R.stands th).of_out hout).2.1
      · exact ((R.stands th).of_holds hholds).2.1
    · exact ((R.stands th).of_out (hothers th hth)).2.1
  have hthrough : through ⊆ {a} := by
    intro th hth
    by_contra hmem
    rw [Finset.mem_singleton] at hmem
    exact ((R.stands th).of_out (hothers th hmem)).2.2 hth
  have hone := Finset.card_le_card hthrough
  rw [Finset.card_singleton] at hone
  -- so the next ticket is no more than the count
  have hbalance := R.balance
  have halone := Gate.next_eq_of_alone R.gate hnone
  have hec : ecLE s.seq (value g.count) = true := by
    rw [R.seq, ecLE_value (by omega) (by omega)]
    omega
  have hplace := hothers b hne
  obtain ⟨s', hsteps, hholds, hsame⟩ :=
    lock_enters R.count hec hb hplace ((R.stands b).of_out hplace).1
  exact ⟨s', hsteps, hholds, hsame a hne.symm⟩

/-- The thread that moves. -/
def Move.thread : Move → Nat
  | ticket th | await th | go th | unlock th => th

/-- Other threads stay where they are. -/
theorem step_place (h : step s m = some s') (hu : u ≠ m.thread) : s'.place u = s.place u := by
  cases m with
  | ticket th =>
      simp only [step] at h
      split at h
      · cases h
        exact Function.update_of_ne hu ..
      · cases h
  | await th =>
      simp only [step] at h
      split at h
      · obtain ⟨sys, -, rfl⟩ := Option.map_eq_some_iff.mp h
        exact Function.update_of_ne hu ..
      · cases h
  | go th =>
      simp only [step] at h
      split at h
      · obtain ⟨sys, -, rfl⟩ := Option.map_eq_some_iff.mp h
        rfl
      · cases h
  | unlock th =>
      simp only [step] at h
      split at h
      · obtain ⟨sys, -, rfl⟩ := Option.map_eq_some_iff.mp h
        exact Function.update_of_ne hu ..
      · cases h

theorem runList_place {moves : List Move} (h : runList step s moves = some s')
    (hu : ∀ m ∈ moves, u ≠ m.thread) : s'.place u = s.place u := by
  induction moves generalizing s with
  | nil =>
      cases h
      rfl
  | cons m moves ih =>
      obtain ⟨s₁, hs₁, h⟩ := Option.bind_eq_some_iff.mp h
      rw [ih h fun m' hm' => hu m' (List.mem_cons_of_mem _ hm')]
      exact step_place hs₁ (hu m List.mem_cons_self)

theorem second_lock_enters_both :
    ∃ s s', reach 2 [.ticket 0, .await 0, .go 0] = some s ∧
      runList step s [.ticket 1, .await 1, .go 1] = some s' ∧ s'.holds 1 = true ∧
      s'.holds 0 = true := by
  have hall : (reach 2 [.ticket 0, .await 0, .go 0]).any (fun s =>
      s.holds 0 && s.sys.runs 1) = true := by
    decide +kernel
  obtain ⟨s, hs, h⟩ := (Option.any_eq_true ..).mp hall
  obtain ⟨h0, h1⟩ := Bool.and_eq_true_iff.mp h
  obtain ⟨s₀, tr, hnew, hrun, hlen⟩ := reach_trace hs
  have hlt : tr.length + 2 < 2 ^ 63 := by rw [hlen]; decide
  -- thread 0 is the only one that has done anything
  have hothers : ∀ th ≠ 0, s.place th = .out := by
    intro th hth
    obtain ⟨s₁, hs₁, hsteps⟩ := Option.bind_eq_some_iff.mp hs
    obtain ⟨s₂, hs₂, R⟩ := construct_rep 2
    rw [hs₂] at hs₁
    cases hs₁
    rw [runList_place hsteps (by simp [Move.thread, hth])]
    cases R.stands th with
    | out hplace => exact hplace
    | ticketed k h1 h2 h3 => cases h3
    | entering k h1 h2 h3 => cases h3
    | testing k h1 h2 h3 => cases h3
    | faulted k f h1 h2 h3 => cases h3
    | passed t h1 h2 h3 h4 => exact absurd h4 (Finset.notMem_empty th)
    | inside t r h1 h2 h3 h4 => exact absurd h4 (Finset.notMem_empty th)
  obtain ⟨s', hs', hb, ha⟩ :=
    second_lock_enters hnew hrun hlt (Or.inr h0) hothers (by decide) h1
  exact ⟨s, s', hs, hs', hb, ha.trans h0⟩

end Mutex

end Metta.Events
