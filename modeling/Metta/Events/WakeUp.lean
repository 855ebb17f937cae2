/-
  Metta.Events.WakeUp — which wake-ups an event count loses.

  Values are 64-bit and wrap; `EC_LE` compares them by the sign of their
  difference, which orders any set of values that fits in half the circle
  (`Window`).  Unblocking stops at the first thread that has to wait on, so it
  is right when the queue is sorted in that order.  Insertion, however,
  compares the values as unsigned numbers.

    • `Settled` — a sorted queue none of whose threads may go,
    • `unblockEvent_settled`, `blockEvent_settled` — the steps,
    • `no_lost_wakeup` — the runs, and what an insertion out of order costs.
-/
import Metta.Events.Queue
import Mathlib.Data.List.TakeWhile

namespace Metta.Events

open Metta.Machine

/-! ## §1. The cyclic order. -/

/-- All values lie within half the circle, so that they differ pairwise by less
than `2 ^ 63`. -/
def Window (vals : List Value) : Prop := ∃ base : Value, ∀ v ∈ vals, (v - base).toNat < 2 ^ 63

theorem ecLE_iff {base a b : Value} (ha : (a - base).toNat < 2 ^ 63)
    (hb : (b - base).toNat < 2 ^ 63) :
    ecLE a b = true ↔ (a - base).toNat ≤ (b - base).toNat := by
  have hab : a - b = (a - base) - (b - base) := by grind
  rw [ecLE, decide_eq_true_iff, hab]
  generalize a - base = x at ha ⊢
  generalize b - base = y at hb ⊢
  rw [BitVec.toInt_eq_toNat_cond, BitVec.toNat_sub]
  split <;> omega

theorem ecLE_refl (a : Value) : ecLE a a = true := by
  simp [ecLE]

namespace Window

variable {vals vals' : List Value} {a b c : Value}

theorem mono (h : Window vals) (hsub : ∀ v ∈ vals', v ∈ vals) : Window vals' := by
  obtain ⟨base, hbase⟩ := h
  exact ⟨base, fun v hv => hbase v (hsub v hv)⟩

theorem trans (h : Window vals) (ha : a ∈ vals) (hb : b ∈ vals) (hc : c ∈ vals)
    (hab : ecLE a b = true) (hbc : ecLE b c = true) : ecLE a c = true := by
  obtain ⟨base, hbase⟩ := h
  rw [ecLE_iff (hbase a ha) (hbase b hb)] at hab
  rw [ecLE_iff (hbase b hb) (hbase c hc)] at hbc
  rw [ecLE_iff (hbase a ha) (hbase c hc)]
  exact le_trans hab hbc

end Window

/-! ## §2. Sorted queues. -/

/-- Earlier threads of the queue wait for no more than later ones. -/
def Sorted (s : State) (q : List Nat) : Prop :=
  q.Pairwise fun t u => ecLE (s.waitValue t) (s.waitValue u) = true

/-- In a sorted queue no thread behind one that has to wait on may go. -/
theorem Sorted.dropWhile_wait {s : State} {q : List Nat} {value : Value} (h : Sorted s q)
    (hwin : Window (value :: q.map s.waitValue)) :
    ∀ t ∈ q.dropWhile (mayGo s value false), ecLE (s.waitValue t) value = false := by
  induction q with
  | nil => intro t ht; simp at ht
  | cons u q ih =>
      obtain ⟨hfirst, hrest⟩ := List.pairwise_cons.mp h
      intro t ht
      by_cases hu : mayGo s value false u = true
      · rw [List.dropWhile_cons_of_pos hu] at ht
        refine ih hrest (hwin.mono fun v hv => ?_) t ht
        rcases List.mem_cons.mp hv with rfl | hv
        · exact List.mem_cons_self
        · exact List.mem_cons_of_mem _ (List.mem_cons_of_mem _ hv)
      · rw [List.dropWhile_cons_of_neg hu] at ht
        rw [mayGo, Bool.false_or] at hu
        rcases List.mem_cons.mp ht with rfl | ht
        · simpa using hu
        · -- were `t` ready, so would be the thread in front of it
          by_contra hready
          rw [Bool.not_eq_false] at hready
          have htmem : s.waitValue t ∈ value :: (u :: q).map s.waitValue :=
            List.mem_cons_of_mem _ (List.mem_map_of_mem (List.mem_cons_of_mem _ ht))
          exact hu (hwin.trans (by simp) htmem (by simp) (hfirst t ht) hready)

/-- A sorted wait queue of blocked threads, all of which wait for more than
`value`. -/
structure Settled (s : State) (ec : Nat) (q : List Nat) (value : Value) : Prop extends
    Waiting s ec q where
  sorted : Sorted s q
  blocked : ∀ t ∈ q, s.status t ≠ .running
  later : ∀ t ∈ q, ecLE (s.waitValue t) value = false

/-- **Unblocking** lets run the threads that may go, and settles the queue. -/
theorem unblockEvent_settled {s : State} {ec : Nat} {q : List Nat} {value : Value}
    (W : Waiting s ec q) (hsorted : Sorted s q) (hblocked : ∀ t ∈ q, s.status t ≠ .running)
    (hwin : Window (value :: q.map s.waitValue)) :
    ∃ s', unblockEvent s ec value false = .ok (q.takeWhile (mayGo s value false), s') ∧
      Settled s' ec (q.dropWhile (mayGo s value false)) value ∧ Kept s s' ∧
      ∀ t, t ∉ q → s'.status t = s.status t := by
  obtain ⟨s', hok, W', K, hstatus⟩ := unblockFrom_spec (s.nThreads + 1) W W.length_lt
  refine ⟨s', hok, ⟨W', ?_, ?_, ?_⟩, K, fun t ht => hstatus t fun ht' =>
    ht ((List.takeWhile_sublist _).subset ht')⟩
  · rw [Sorted, K.waitValue]
    exact hsorted.sublist (List.dropWhile_sublist _)
  · intro t ht
    have hsplit := List.takeWhile_append_dropWhile (p := mayGo s value false) (l := q)
    have hnot : t ∉ q.takeWhile (mayGo s value false) := by
      intro ht'
      have hnd := W.nodup
      rw [← hsplit, List.nodup_append] at hnd
      exact hnd.2.2 t ht' t ht rfl
    rw [hstatus t hnot]
    exact hblocked t ((List.dropWhile_sublist _).subset ht)
  · rw [K.waitValue]
    exact hsorted.dropWhile_wait hwin

/-! ## §3. Insertion. -/

/-- The queue after the insertion of `th` with `value`, by the unsigned order. -/
def inserted (s : State) (q : List Nat) (th : Nat) (value : Value) : List Nat :=
  q.takeWhile (s.waitValue · ≤ value) ++ th :: q.dropWhile (s.waitValue · ≤ value)

/-- The threads that the search passes wait for no more than `value` in the cyclic
order too, and the one it stops at for no less. -/
def InOrder (s : State) (q : List Nat) (value : Value) : Prop :=
  (∀ t ∈ q.takeWhile (s.waitValue · ≤ value), ecLE (s.waitValue t) value = true) ∧
    ∀ t ∈ (q.dropWhile (s.waitValue · ≤ value)).head?, ecLE value (s.waitValue t) = true

theorem inserted_update {s s' : State} {q : List Nat} {th : Nat} {value : Value}
    (hs' : s'.waitValue = Function.update s.waitValue th value) (hth : th ∉ q) :
    inserted s' q th value = inserted s q th value := by
  have hsame : ∀ t ∈ q, s'.waitValue t = s.waitValue t := by
    intro t ht
    have hne : t ≠ th := fun h => hth (h ▸ ht)
    rw [hs', Function.update_of_ne hne]
  clear hs' hth
  induction q with
  | nil => rfl
  | cons u q ih =>
      have ih' := ih fun t ht => hsame t (List.mem_cons_of_mem _ ht)
      simp only [inserted] at ih' ⊢
      simp only [List.takeWhile_cons, List.dropWhile_cons, hsame u List.mem_cons_self]
      split
      · rw [List.cons_append, List.cons_append, ih']
      · rfl

theorem mem_inserted {s : State} {q : List Nat} {th : Nat} {value : Value} {t : Nat} :
    t ∈ inserted s q th value ↔ t = th ∨ t ∈ q := by
  have hsplit := List.takeWhile_append_dropWhile (p := fun t => decide (s.waitValue t ≤ value))
    (l := q)
  constructor
  · intro ht
    rcases List.mem_append.mp ht with ht | ht
    · exact .inr ((List.takeWhile_sublist _).subset ht)
    · rcases List.mem_cons.mp ht with rfl | ht
      · exact .inl rfl
      · exact .inr ((List.dropWhile_sublist _).subset ht)
  · rintro (rfl | ht)
    · exact List.mem_append_right _ List.mem_cons_self
    · rw [← hsplit] at ht
      rcases List.mem_append.mp ht with ht | ht
      · exact List.mem_append_left _ ht
      · exact List.mem_append_right _ (List.mem_cons_of_mem _ ht)

variable {s : State} {ec th : Nat} {q : List Nat} {value v : Value}

/-- **`block_event` without a deadline** on a queue that is not empty. -/
theorem blockEvent_waiting (v : Value) (answer : TimeoutAnswer) (W : Waiting s ec q) (hq : q ≠ []) (hth : th < s.nThreads)
    (hnew : th ∉ q) :
    ∃ s', blockEvent s th (some ec) v forever answer = .ok s' ∧
      Waiting s' ec (inserted s q th v) ∧
      s'.waitValue = Function.update s.waitValue th v ∧ s'.counts = s.counts ∧
      s'.nThreads = s.nThreads ∧
      s'.status = Function.update s.status th (.blocked forever) := by
  have hring : Node.waitq th ∉ Node.waitQueue ec :: q.map Node.waitq := by
    simpa using hnew
  obtain ⟨l', hl', R', hbase'⟩ := enqueue_ring (Function.update s.waitValue th v) v W.ring
    (fun t ht => W.base t (W.thread t ht)) hq W.length_lt hring
  -- the queue was searched with the new thread's own value already set
  let s' : State := { s with
    waitValue := Function.update s.waitValue th v
    waitTime := Function.update s.waitTime th forever
    links := l'.init (.timeq th) none
    status := Function.update s.status th (.blocked forever) }
  have hsame : inserted s' q th v = inserted s q th v := inserted_update rfl hnew
  have hinit : ∀ x, x ≠ Node.timeq th → s'.links x = l' x :=
    fun x hx => Function.update_of_ne hx ..
  refine ⟨s', ?_, ⟨?_, ?_, ?_⟩, rfl, rfl, rfl, rfl⟩
  · simp only [blockEvent, enqueueWait, hl', bind, Except.bind, if_true]
    rfl
  · rw [← hsame]
    refine R'.congr fun x hx => ?_
    have hx' : x ≠ Node.timeq th := by
      rintro rfl
      simp at hx
    rw [hinit x hx']
    exact ⟨rfl, rfl⟩
  · intro t ht
    rw [hinit _ (by simp), hbase']
    exact W.base t ht
  · intro t ht
    rcases mem_inserted.mp ht with rfl | ht
    · exact hth
    · exact W.thread t ht

/-- An insertion in order keeps the queue sorted. -/
theorem inserted_sorted (hsorted : Sorted s q) (hin : InOrder s q v)
    (hwin : Window (v :: q.map s.waitValue)) (hnew : th ∉ q) :
    (inserted s q th v).Pairwise fun t u =>
      ecLE (Function.update s.waitValue th v t) (Function.update s.waitValue th v u) = true := by
  have hsplit := List.takeWhile_append_dropWhile (p := fun t => decide (s.waitValue t ≤ v)) (l := q)
  -- the thread is new, so that the others wait for what they did
  have hold : ∀ t ∈ q, Function.update s.waitValue th v t = s.waitValue t := by
    intro t ht
    have hne : t ≠ th := fun h => hnew (h ▸ ht)
    rw [Function.update_of_ne hne]
  have hmem : ∀ t ∈ q, s.waitValue t ∈ v :: q.map s.waitValue :=
    fun t ht => List.mem_cons_of_mem _ (List.mem_map_of_mem ht)
  have hq : q.Pairwise fun t u =>
      ecLE (Function.update s.waitValue th v t) (Function.update s.waitValue th v u) = true :=
    hsorted.imp_of_mem fun ht hu h => by rw [hold _ ht, hold _ hu]; exact h
  have hparts := hq
  rw [← hsplit, List.pairwise_append] at hparts
  obtain ⟨hpassed, hstopped⟩ := hin
  rw [inserted, List.pairwise_append]
  refine ⟨hparts.1, List.pairwise_cons.mpr ⟨fun u hu => ?_, hparts.2.1⟩, fun t ht u hu => ?_⟩
  · -- behind the thread the search stopped at everyone waits for more
    have huq := (List.dropWhile_sublist _).subset hu
    rw [Function.update_self, hold u huq]
    cases hdrop : q.dropWhile (s.waitValue · ≤ v) with
    | nil => rw [hdrop] at hu; simp at hu
    | cons z zs =>
        have hz : z ∈ q.dropWhile (s.waitValue · ≤ v) := hdrop ▸ List.mem_cons_self
        have hzq := (List.dropWhile_sublist _).subset hz
        have hvz := hstopped z (by rw [hdrop]; rfl)
        rw [hdrop] at hu
        rcases List.mem_cons.mp hu with rfl | hu
        · exact hvz
        · have hzu := hparts.2.1
          rw [hdrop] at hzu
          have hzu' := (List.pairwise_cons.mp hzu).1 u hu
          rw [hold z hzq, hold u huq] at hzu'
          exact hwin.trans List.mem_cons_self (hmem z hzq) (hmem u huq) hvz hzu'
  · -- in front of the thread everyone waits for as much or less
    have htq := (List.takeWhile_sublist _).subset ht
    rcases List.mem_cons.mp hu with rfl | hu
    · rw [Function.update_self, hold t htq]
      exact hpassed t ht
    · exact hparts.2.2 t ht u hu

/-- **An insertion in order** settles the queue with the new thread in it. -/
theorem blockEvent_settled (answer : TimeoutAnswer) (S : Settled s ec q value) (hq : q ≠ []) (hth : th < s.nThreads)
    (hrun : s.status th = .running) (hlater : ecLE v value = false)
    (hwin : Window (v :: q.map s.waitValue)) (hin : InOrder s q v) :
    ∃ s', blockEvent s th (some ec) v forever answer = .ok s' ∧
      Settled s' ec (inserted s q th v) value ∧ s'.counts = s.counts := by
  have hnew : th ∉ q := fun h => S.blocked th h hrun
  obtain ⟨s', hok, W', hwait, hcounts, -, hstatus⟩ :=
    blockEvent_waiting v answer S.toWaiting hq hth hnew
  have hne : ∀ t ∈ q, t ≠ th := fun t ht h => hnew (h ▸ ht)
  refine ⟨s', hok, ⟨W', ?_, ?_, ?_⟩, hcounts⟩
  · rw [Sorted, hwait]
    exact inserted_sorted S.sorted hin hwin hnew
  · intro t ht
    rw [hstatus]
    rcases mem_inserted.mp ht with rfl | ht
    · rw [Function.update_self]
      exact Status.noConfusion
    · rw [Function.update_of_ne (hne t ht)]
      exact S.blocked t ht
  · intro t ht
    rw [hwait]
    rcases mem_inserted.mp ht with rfl | ht
    · rw [Function.update_self]
      exact hlater
    · rw [Function.update_of_ne (hne t ht)]
      exact S.later t ht

/-! ## §4. Runs. -/

/-- The calls of one event count: threads that run await, in order with those that
are left in the queue, and all values in play stay within a window. -/
def Orderly (ec : Nat) (s : State) : Call → Prop
  | .await th ec' v rxVal =>
      ec' = ec ∧ th < s.nThreads ∧ s.status th = .running ∧
        ∀ q count, Waiting s ec q → s.counts ec = some count →
          Window (v :: currentValue count rxVal :: q.map s.waitValue) ∧
          (ecLE v count.value = false → ecLE v (currentValue count rxVal) = false →
            InOrder s (q.dropWhile (mayGo s (currentValue count rxVal) false)) v)
  | .advance ec' increment =>
      ec' = ec ∧ ∀ q count, Waiting s ec q → s.counts ec = some count →
        Window ((count.value + increment) :: q.map s.waitValue)
  | _ => False

/-- The count `ec` exists and its queue is settled at its value. -/
def Calm (s : State) (ec : Nat) (q : List Nat) : Prop :=
  ∃ count, s.counts ec = some count ∧ Settled s ec q count.value

/-- Setting the value moves no thread. -/
theorem Waiting.setValue (W : Waiting s ec q) (count : EventCount) (value : Value) :
    Waiting (setValue s ec count value) ec q :=
  ⟨W.ring, W.base, W.thread⟩

/-- **`events_advance`** on a queue of blocked threads that is sorted: who may go at
the new value goes, and the queue is settled there. -/
theorem advance_calm {count : EventCount} {increment : Value}
    (hcount : s.counts ec = some count) (S : Settled s ec q count.value)
    (hwin : Window ((count.value + increment) :: q.map s.waitValue)) :
    ∃ s', advance s ec increment
        = .ok (q.takeWhile (mayGo s (count.value + increment) false), s') ∧
      s'.counts ec = some { count with value := count.value + increment } ∧
      Settled s' ec (q.dropWhile (mayGo s (count.value + increment) false))
        (count.value + increment) ∧ s'.waitValue = s.waitValue := by
  obtain ⟨s', hok, S', K, -⟩ := unblockEvent_settled
    (S.toWaiting.setValue count (count.value + increment)) S.sorted S.blocked hwin
  have hvalue : s'.counts ec = some { count with value := count.value + increment } := by
    rw [K.counts]
    exact Function.update_self ..
  refine ⟨if count.epType = .tx then { s' with sent := (ec, count.value + increment) :: s'.sent }
    else s', ?_, ?_, ?_, ?_⟩
  · simp only [advance, hcount, hok]
    rfl
  · split <;> exact hvalue
  · split
    · exact ⟨⟨S'.ring, S'.base, S'.thread⟩, S'.sorted, S'.blocked, S'.later⟩
    · exact S'
  · split <;> exact K.waitValue

/-- No thread of a settled queue may go. -/
theorem Settled.dropWhile_eq (S : Settled s ec q value) : q.dropWhile (mayGo s value false) = q := by
  cases q with
  | nil => rfl
  | cons t q =>
      have hwait := S.later t List.mem_cons_self
      exact List.dropWhile_cons_of_neg (by simp [mayGo, hwait])

/-- Taking over the value of a channel settles the queue at it; a count that does
not receive keeps its own. -/
theorem syncReceiver_settled {count : EventCount} {rxVal : Value}
    (hcount : s.counts ec = some count) (S : Settled s ec q count.value)
    (hwin : Window (currentValue count rxVal :: q.map s.waitValue)) :
    ∃ s' count', syncReceiver s ec count rxVal = .ok (currentValue count rxVal, s') ∧
      s'.counts ec = some count' ∧ count'.value = currentValue count rxVal ∧
      Settled s' ec (q.dropWhile (mayGo s (currentValue count rxVal) false))
        (currentValue count rxVal) ∧
      s'.nThreads = s.nThreads ∧ s'.waitValue = s.waitValue ∧
      ∀ t, t ∉ q → s'.status t = s.status t := by
  by_cases hrx : count.epType = .rx
  · simp only [currentValue, if_pos hrx] at hwin ⊢
    obtain ⟨s', hok, S', K, hstatus⟩ := unblockEvent_settled
      (S.toWaiting.setValue count rxVal) S.sorted S.blocked hwin
    refine ⟨s', { count with value := rxVal }, ?_, ?_, rfl, S', K.nThreads, K.waitValue, hstatus⟩
    · simp only [syncReceiver, if_pos hrx, hok]
      rfl
    · rw [K.counts]
      exact Function.update_self ..
  · simp only [currentValue, if_neg hrx]
    refine ⟨s, count, ?_, hcount, rfl, ?_, rfl, rfl, fun _ _ => rfl⟩
    · simp only [syncReceiver, if_neg hrx]
    · rw [S.dropWhile_eq]
      exact S

/-- **One call**: the queue is settled again. -/
theorem exec_calm {s' : State} {c : Call} (C : Calm s ec q) (hc : Orderly ec s c)
    (h : exec s c = .ok s') : ∃ q', Calm s' ec q' := by
  obtain ⟨count, hcount, S⟩ := C
  cases c with
  | advance ec' increment =>
      obtain ⟨rfl, hwin⟩ := hc
      obtain ⟨s₁, hok, hcount', S', -⟩ := advance_calm hcount S (hwin q count S.toWaiting hcount)
      obtain ⟨r, hr, rfl⟩ := map_eq_ok.mp h
      rw [hok] at hr
      cases hr
      exact ⟨_, _, hcount', S'⟩
  | await th ec' v rxVal =>
      obtain ⟨rfl, hth, hrun, hmeet⟩ := hc
      obtain ⟨hwin, hin⟩ := hmeet q count S.toWaiting hcount
      simp only [exec, await, hcount] at h
      by_cases hle : ecLE v count.value = true
      · rw [if_pos hle] at h
        cases h
        exact ⟨q, count, hcount, S⟩
      · rw [if_neg hle] at h
        obtain ⟨s₁, count₁, hsync, hcount₁, hvalue₁, S₁, hn₁, hwait₁, hstatus₁⟩ :=
          syncReceiver_settled hcount S
            (hwin.mono fun u hu => List.mem_cons_of_mem _ hu)
        simp only [hsync, bind, Except.bind, ecGT_eq] at h
        cases hgt : ecLE v (currentValue count rxVal) with
        | true =>
            rw [hgt, if_neg (by simp)] at h
            cases h
            exact ⟨_, count₁, hcount₁, hvalue₁ ▸ S₁⟩
        | false =>
            rw [hgt, if_pos (by simp)] at h
            have hnew : th ∉ q := fun hmem => S.blocked th hmem hrun
            generalize hq₁ : q.dropWhile (mayGo s (currentValue count rxVal) false) = q₁ at S₁ hin
            have hq₁sub : ∀ t ∈ q₁, t ∈ q := fun t ht => by
              rw [← hq₁] at ht
              exact (List.dropWhile_sublist _).subset ht
            -- a call that returned did not insert into an empty queue
            have hq₁ne : q₁ ≠ [] := by
              rintro rfl
              simp only [blockEvent, enqueueWait, enqueue_empty _ _ S₁.ring, bind, Except.bind] at h
              cases h
            have hin₁ : InOrder s₁ q₁ v := by
              have := hin (by simpa using hle) hgt
              simpa only [InOrder, hwait₁] using this
            obtain ⟨s₂, hblock, S₂, hcounts₂⟩ := blockEvent_settled .added S₁ hq₁ne (hn₁ ▸ hth) ((hstatus₁ th hnew).trans hrun) hgt
              (hwin.mono fun u hu => by
                rcases List.mem_cons.mp hu with rfl | hu
                · exact List.mem_cons_self
                · obtain ⟨t, ht, rfl⟩ := List.mem_map.mp hu
                  rw [hwait₁]
                  exact List.mem_cons_of_mem _ (List.mem_cons_of_mem _
                    (List.mem_map_of_mem (hq₁sub t ht)))) hin₁
            rw [hblock] at h
            cases h
            exact ⟨_, count₁, hcounts₂ ▸ hcount₁, hvalue₁ ▸ S₂⟩
  | create room => exact hc.elim
  | destroy ec' => exact hc.elim
  | awaitUntil th ec' value until_ now now' rxVal answer => exact hc.elim
  | wake th => exact hc.elim

/-- **A run of calls.** -/
theorem run_calm {s₀ : State} {q₀ : List Nat} (C : Calm s₀ ec q₀)
    (hrun : Run (Orderly ec) s₀ s) : ∃ q, Calm s ec q := by
  induction hrun with
  | nil => exact ⟨q₀, C⟩
  | step hrun hc hexec ih =>
      obtain ⟨q, C'⟩ := ih
      exact exec_calm C' hc hexec

/-! ## §5. What an insertion out of order costs. -/

/-- Unblocking takes nobody from behind a thread that has to wait on. -/
theorem mem_dropWhile_append {p : Nat → Bool} {as bs : List Nat} {t u : Nat} (ht : p t = false)
    (hu : u ∈ t :: bs) : u ∈ (as ++ t :: bs).dropWhile p := by
  induction as with
  | nil => simpa [ht] using hu
  | cons a as ih =>
      by_cases ha : p a = true
      · rw [List.cons_append, List.dropWhile_cons_of_pos ha]
        exact ih
      · rw [List.cons_append, List.dropWhile_cons_of_neg ha]
        exact List.mem_cons_of_mem _ (List.mem_append_right _ hu)

/-- After every advance within the window no thread that may go is left. -/
def LosesNone (s : State) (ec : Nat) (count : EventCount) (q : List Nat) : Prop :=
  ∀ increment woken s' left, Window ((count.value + increment) :: q.map s.waitValue) →
    advance s ec increment = .ok (woken, s') → Waiting s' ec left →
    ∀ t ∈ left, ecLE (s'.waitValue t) (count.value + increment) = false

/-- The queue that an advance leaves, sorted or not. -/
theorem advance_waiting {count : EventCount} (hcount : s.counts ec = some count)
    (W : Waiting s ec q) (increment : Value) :
    ∃ s', advance s ec increment
        = .ok (q.takeWhile (mayGo s (count.value + increment) false), s') ∧
      Waiting s' ec (q.dropWhile (mayGo s (count.value + increment) false)) ∧
      s'.waitValue = s.waitValue := by
  have W₁ := W.setValue count (count.value + increment)
  obtain ⟨s', hok, W', K, -⟩ := @unblockFrom_spec ec (count.value + increment) false
    (s.nThreads + 1) _ _ W₁ W.length_lt
  refine ⟨if count.epType = .tx then { s' with sent := (ec, count.value + increment) :: s'.sent }
    else s', ?_, ?_, ?_⟩
  · have hunblock : unblockEvent (setValue s ec count (count.value + increment)) ec
        (count.value + increment) false
          = .ok (q.takeWhile (mayGo s (count.value + increment) false), s') := hok
    simp only [advance, hcount, hunblock]
    rfl
  · split
    · exact ⟨W'.ring, W'.base, W'.thread⟩
    · exact W'
  · split <;> exact K.waitValue

/-- **An insertion loses no wake-up exactly when it is in order.** -/
theorem losesNone_iff_inOrder {count : EventCount} {s₁ : State}
    (hcount : s.counts ec = some count) (S : Settled s ec q count.value)
    (hrun : s.status th = .running) (hth : th < s.nThreads) (hlater : ecLE v count.value = false)
    (hwin : Window (v :: count.value :: q.map s.waitValue))
    (hblock : blockEvent s th (some ec) v forever .added = .ok s₁) :
    LosesNone s₁ ec count (inserted s q th v) ↔ InOrder s q v := by
  have hnew : th ∉ q := fun hmem => S.blocked th hmem hrun
  have hq : q ≠ [] := by
    rintro rfl
    simp only [blockEvent, enqueueWait, enqueue_empty _ _ S.ring, bind, Except.bind] at hblock
    cases hblock
  obtain ⟨s₁', hok, W₁, hwait₁, hcounts₁, -, -⟩ :=
    blockEvent_waiting v .added S.toWaiting hq hth hnew
  rw [hblock] at hok
  cases hok
  have hold : ∀ t ∈ q, s₁.waitValue t = s.waitValue t := by
    intro t ht
    have hne : t ≠ th := fun h => hnew (h ▸ ht)
    rw [hwait₁, Function.update_of_ne hne]
  have hself : s₁.waitValue th = v := by rw [hwait₁, Function.update_self]
  have hwin₁ : ∀ x, x = v ∨ x ∈ q.map s.waitValue →
      Window (x :: (inserted s q th v).map s₁.waitValue) := by
    intro x hx
    refine hwin.mono fun u hu => ?_
    have hmem : ∀ w, w = v ∨ w ∈ q.map s.waitValue → w ∈ v :: count.value :: q.map s.waitValue := by
      rintro w (rfl | hw)
      · exact List.mem_cons_self
      · exact List.mem_cons_of_mem _ (List.mem_cons_of_mem _ hw)
    rcases List.mem_cons.mp hu with rfl | hu
    · exact hmem u hx
    · obtain ⟨t, ht, rfl⟩ := List.mem_map.mp hu
      rcases mem_inserted.mp ht with rfl | ht
      · exact hmem _ (.inl hself)
      · rw [hold t ht]
        exact hmem _ (.inr (List.mem_map_of_mem ht))
  -- the threads that stay when the count is advanced to `x`
  have hleft : LosesNone s₁ ec count (inserted s q th v) → ∀ x,
      x = v ∨ x ∈ q.map s.waitValue →
      ∀ t ∈ (inserted s q th v).dropWhile (mayGo s₁ x false), ecLE (s₁.waitValue t) x = false := by
    intro hnone x hx t ht
    have hx' : count.value + (x - count.value) = x := by grind
    obtain ⟨s₂, hadv, W₂, hwait₂⟩ := advance_waiting (hcounts₁ ▸ hcount) W₁ (x - count.value)
    have hw := hwin₁ x hx
    rw [hx'] at hadv W₂
    have hfalse := hnone (x - count.value) _ s₂ _ (hx'.symm ▸ hw) hadv W₂ t ht
    rwa [hwait₂, hx'] at hfalse
  constructor
  · intro hnone
    constructor
    · intro t ht
      by_contra hfalse
      rw [Bool.not_eq_true] at hfalse
      have htq := (List.takeWhile_sublist _).subset ht
      obtain ⟨as, bs, hsplit⟩ := List.append_of_mem ht
      -- advanced to its own value, `th` stays behind `t`
      have hstay : th ∈ (inserted s q th v).dropWhile (mayGo s₁ v false) := by
        rw [inserted, hsplit, List.append_assoc, List.cons_append]
        refine mem_dropWhile_append ?_ (by simp)
        rw [mayGo, hold t htq, Bool.false_or]
        exact hfalse
      have := hleft hnone v (.inl rfl) th hstay
      rw [hself, ecLE_refl] at this
      cases this
    · intro t ht
      by_contra hfalse
      rw [Bool.not_eq_true] at hfalse
      obtain ⟨zs, hzs⟩ := List.head?_eq_some_iff.mp ht
      have htq : t ∈ q :=
        (List.dropWhile_sublist _).subset (by rw [hzs]; exact List.mem_cons_self)
      -- advanced to the value of `t`, `t` stays behind `th`
      have hstay : t ∈ (inserted s q th v).dropWhile (mayGo s₁ (s.waitValue t) false) := by
        rw [inserted, hzs]
        refine mem_dropWhile_append ?_ (by simp)
        rw [mayGo, hself, Bool.false_or]
        exact hfalse
      have := hleft hnone (s.waitValue t) (.inr (List.mem_map_of_mem htq)) t hstay
      rw [hold t htq, ecLE_refl] at this
      cases this
  · intro hin increment woken s₂ left hw hadv W₂ t ht
    obtain ⟨s₁', hok, S₁, -⟩ := blockEvent_settled .added S hq hth hrun hlater
      (hwin.mono fun u hu => by
        rcases List.mem_cons.mp hu with rfl | hu
        · exact List.mem_cons_self
        · exact List.mem_cons_of_mem _ (List.mem_cons_of_mem _ hu)) hin
    rw [hblock] at hok
    cases hok
    obtain ⟨s₂', hadv', -, S₂, -⟩ := advance_calm (hcounts₁ ▸ hcount) S₁ hw
    rw [hadv] at hadv'
    cases hadv'
    rw [W₂.unique S₂.toWaiting] at ht
    exact S₂.later t ht

/-! ## §6. No wake-up is lost in order. -/

/-- Every advance within the window wakes exactly the threads that may go. -/
def WakesExactly (s : State) (ec : Nat) (count : EventCount) (q : List Nat) : Prop :=
  ∀ increment, Window ((count.value + increment) :: q.map s.waitValue) →
    ∃ woken left s', advance s ec increment = .ok (woken, s') ∧ q = woken ++ left ∧
      Waiting s' ec left ∧
      (∀ t ∈ woken, ecLE (s.waitValue t) (count.value + increment) = true) ∧
      ∀ t ∈ left, ecLE (s.waitValue t) (count.value + increment) = false

/-- **No wake-up is lost**: in every state reached by orderly calls the next advance
wakes exactly the threads that may go; and the next insertion keeps it so
exactly when it is in order. -/
theorem no_lost_wakeup {s₀ s : State} {ec : Nat} {q₀ : List Nat} (C₀ : Calm s₀ ec q₀)
    (hrun : Run (Orderly ec) s₀ s) :
    ∃ q count, s.counts ec = some count ∧ Waiting s ec q ∧ WakesExactly s ec count q ∧
      ∀ th v s₁, s.status th = .running → th < s.nThreads → ecLE v count.value = false →
        Window (v :: count.value :: q.map s.waitValue) →
        blockEvent s th (some ec) v forever .added = .ok s₁ →
        (LosesNone s₁ ec count (inserted s q th v) ↔ InOrder s q v) := by
  obtain ⟨q, count, hcount, S⟩ := run_calm C₀ hrun
  refine ⟨q, count, hcount, S.toWaiting, ?_, ?_⟩
  · intro increment hwin
    obtain ⟨s', hadv, -, S', hwait⟩ := advance_calm hcount S hwin
    refine ⟨_, _, s', hadv, (List.takeWhile_append_dropWhile ..).symm, S'.toWaiting, ?_, ?_⟩
    · intro t ht
      have hgo : mayGo s (count.value + increment) false t = true := List.mem_takeWhile_imp ht
      rwa [mayGo, Bool.false_or] at hgo
    · rw [← hwait]
      exact S'.later
  · intro th v s₁ hstatus hth hlater hwin hblock
    exact losesNone_iff_inOrder hcount S hstatus hth hlater hwin hblock

/-- Two threads, and a count two short of wrapping with the first thread in its
queue, which waits for the value 2 after the wrap. -/
def oneWaiter : State :=
  let s := (create (fresh 2) true).after (.advance 0 (-2))
  { s with
    links := s.links.insertBefore (.waitQueue 0) (.waitq 0)
    waitValue := Function.update s.waitValue 0 2
    status := Function.update s.status 0 (.blocked forever) }

theorem oneWaiter_counts : oneWaiter.counts 0 = some ⟨-2, .none⟩ := by decide +kernel

theorem oneWaiter_calm : Calm oneWaiter 0 [0] := by
  have hthreads : oneWaiter.nThreads = 2 := by decide +kernel
  refine ⟨_, oneWaiter_counts, ⟨⟨⟨by decide, ?_⟩, ?_, ?_⟩, ?_, ?_, ?_⟩⟩
  · exact ⟨⟨by decide +kernel, by decide +kernel⟩, by decide +kernel, by decide +kernel⟩
  · rw [hthreads]
    decide +kernel
  · decide +kernel
  · exact List.pairwise_singleton ..
  · decide +kernel
  · decide +kernel

/-- The second thread waits for the value 3, behind the first. -/
theorem no_lost_wakeup_two_threads :
    ∃ q count, (oneWaiter.after (.await 1 0 3 0)).counts 0 = some count ∧
      Waiting (oneWaiter.after (.await 1 0 3 0)) 0 q ∧
      WakesExactly (oneWaiter.after (.await 1 0 3 0)) 0 count q := by
  have hok : Orderly 0 oneWaiter (.await 1 0 3 0) := by
    refine ⟨rfl, by decide +kernel, by decide +kernel, ?_⟩
    intro q count W hcount
    obtain ⟨_, _, S⟩ := oneWaiter_calm
    rw [oneWaiter_counts, Option.some_inj] at hcount
    rw [W.unique S.toWaiting, ← hcount]
    refine ⟨⟨-2, ?_⟩, fun _ _ => ⟨by decide +kernel, by decide +kernel⟩⟩
    rw [List.map_singleton, List.forall_mem_cons, List.forall_mem_cons, List.forall_mem_singleton]
    exact ⟨by decide +kernel, by decide +kernel, by decide +kernel⟩
  obtain ⟨q, count, hcount, W, hwakes, -⟩ := no_lost_wakeup oneWaiter_calm
    (.step .nil hok (exec_after (by decide +kernel)))
  exact ⟨q, count, hcount, W, hwakes⟩

/-- The second thread waits for the last value before the wrap, as an unsigned
number the largest: it is put behind the first, and when the count gets there
it stays in the queue. -/
theorem wakeup_lost_at_wrap :
    Calm oneWaiter 0 [0] ∧
      exec oneWaiter (.await 1 0 (-1) 0) = .ok (oneWaiter.after (.await 1 0 (-1) 0)) ∧
      Window [-1, -2, 2] ∧
      (advance (oneWaiter.after (.await 1 0 (-1) 0)) 0 1).toOption.map Prod.fst = some [] ∧
      ∃ s, exec (oneWaiter.after (.await 1 0 (-1) 0)) (.advance 0 1) = .ok s ∧
        Waiting s 0 [0, 1] ∧ (s.counts 0).map EventCount.value = some (-1) ∧
        ecLE (s.waitValue 1) (-1) = true := by
  have hthreads : ((oneWaiter.after (.await 1 0 (-1) 0)).after (.advance 0 1)).nThreads = 2 := by
    decide +kernel
  have hwin : Window [-1, -2, 2] := by
    refine ⟨-2, ?_⟩
    rw [List.forall_mem_cons, List.forall_mem_cons, List.forall_mem_singleton]
    exact ⟨by decide +kernel, by decide +kernel, by decide +kernel⟩
  refine ⟨oneWaiter_calm, exec_after (by decide +kernel), hwin, by decide +kernel, _,
    exec_after (by decide +kernel), ⟨⟨by decide, ?_⟩, ?_, ?_⟩, by decide +kernel,
    by decide +kernel⟩
  · exact ⟨⟨by decide +kernel, by decide +kernel⟩, ⟨by decide +kernel, by decide +kernel⟩,
      by decide +kernel, by decide +kernel⟩
  · rw [hthreads]
    decide +kernel
  · decide +kernel

end Metta.Events
