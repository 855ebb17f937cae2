/-
  Metta.Events.Def — event counts of modules/tcb/root_domain/events.cpp.

  A thread that waits for an event count to reach a value is linked into the
  wait queue of the count, and, when it gave a deadline, into the time queue
  of the instance.  Both are intrusive lists of `doubly_linked_list.h`; each
  thread has one link for each (`qlink_t`).

  Four things of the source need a word:

    • A null `dl_link_t*` or a null `base` that is dereferenced is a fault.
    • The loops over a queue take at most one step more than there are
      threads; a queue that is still not at its end is a fault too.
    • What others decide is an argument: the clock, the answer of
      `add_timeout`, the value that the query loop of a receiving count ends
      with, and whether the heap has room.
    • `block_yield` gives the processor away.  The model of a call ends there,
      with the thread blocked; `wake` is the outside agency that lets it run
      again.  The source has no handler for a timeout that fires.

  The channel endpoints, the sequencers and the processor lock are left out,
  and so is `block_time`, which nobody reads.
-/
import Metta.Machine.DLList
import Metta.Machine.Outcome

namespace Metta.Events

open Metta.Machine

/-! ## §1. Values and times. -/

/-- `event_v1::value`. -/
abbrev Value := BitVec 64

/-- `EC_LE`: the difference is not positive as a signed number. -/
def ecLE (ev1 ev2 : Value) : Bool := decide ((ev1 - ev2).toInt ≤ 0)

/-- `EC_GT`. -/
def ecGT (ev1 ev2 : Value) : Bool := decide ((ev1 - ev2).toInt > 0)

/-- `FOREVER`. -/
def forever : Int := 0x7fffffffffffffff

/-- `IN_FUTURE`, with the value of `NOW()`. -/
def inFuture (until_ now : Int) : Bool := until_ != 0 && (until_ == forever || now < until_)

/-! ## §2. The state. -/

/-- The links: the heads of the lists, and the members of counts and threads. -/
inductive Node where
  | timeQueue
  | waitQueue (ec : Nat)
  | waitq (th : Nat)
  | timeq (th : Nat)
  | allCounts
  | ecQueue (ec : Nat)
  deriving DecidableEq, Repr

inductive Fault where
  /-- A null link is dereferenced. -/
  | nullLink
  /-- The null `base` of a link is dereferenced. -/
  | nullBase
  /-- A loop over a queue does not come to its end. -/
  | endless
  /-- The event count does not exist. -/
  | noCount
  /-- A null method of a closure is called. -/
  | nullMethod
  deriving DecidableEq, Repr

/-- `channel_v1::endpoint_type`. -/
inductive EndpointType where
  | none
  | rx
  | tx
  deriving DecidableEq, Repr

/-- `event_count_t`, less its links. -/
structure EventCount where
  value : Value
  epType : EndpointType
  deriving DecidableEq, Repr

/-- What the user-level scheduler knows of a thread. -/
inductive Status where
  | running
  | blocked (until_ : Int)
  deriving DecidableEq, Repr

/-- The answers of `add_timeout`. -/
inductive TimeoutAnswer where
  | added
  /-- The deadline passed while the timeout was added. -/
  | passed
  /-- `too_many_timeouts` is raised. -/
  | tooMany
  deriving DecidableEq, Repr

/-- `instance_state_t` with its event counts and threads. -/
structure State where
  nThreads : Nat
  links : Links Node Nat
  waitValue : Nat → Value
  waitTime : Nat → Int
  status : Nat → Status
  alerted : Nat → Bool
  nCounts : Nat
  counts : Nat → Option EventCount
  /-- The values sent out on connected endpoints, newest first. -/
  sent : List (Nat × Value)

/-! ## §3. Blocking and unblocking. -/

/-- The search of `block_event` from the link `w` on: the first link that is the
head or whose thread waits for more than `value`. -/
def findPlace {κ : Type} [LE κ] [DecidableLE κ] (l : Links Node Nat) (head : Node) (key : Nat → κ)
    (value : κ) : Nat → Option Node → Except Fault Node
  | 0, _ => .error .endless
  | _ + 1, none => .error .nullLink
  | n + 1, some w =>
      if w = head then .ok w
      else
        match (l w).base with
        | none => .error .nullBase
        | some t => if key t ≤ value then findPlace l head key value n (l.next w) else .ok w

/-- Link the thread's member `n` into the queue at `head`, after the threads with
keys up to `value`. -/
def enqueue {κ : Type} [LE κ] [DecidableLE κ] (fuel : Nat) (l : Links Node Nat) (head n : Node)
    (key : Nat → κ) (value : κ) : Except Fault (Links Node Nat) :=
  (findPlace l head key value fuel (l.next head)).map fun w => l.insertBefore w n

/-- The first half of `block_event`: the thread waits for `value`. -/
def enqueueWait (s : State) (th : Nat) (ec : Option Nat) (value : Value) :
    Except Fault (Links Node Nat) :=
  match ec with
  | some ec => enqueue (s.nThreads + 1) s.links (.waitQueue ec) (.waitq th) s.waitValue value
  | none => .ok (s.links.init (.waitq th) none)

/-- `block_event`. -/
def blockEvent (s : State) (th : Nat) (ec : Option Nat) (value : Value) (until_ : Int)
    (answer : TimeoutAnswer) : Except Fault State := do
  let s := { s with
    waitValue := Function.update s.waitValue th value
    waitTime := Function.update s.waitTime th until_ }
  let l ← enqueueWait s th ec value
  if until_ = forever then
    return { s with
      links := l.init (.timeq th) none
      status := Function.update s.status th (.blocked until_) }
  else
    match answer with
    | .tooMany => return { s with links := l }
    | .passed =>
        if (l.next (.waitq th)).isSome then
          return { s with
            links := ((l.remove (.waitq th)).init (.waitq th) none).init (.timeq th) none }
        else return { s with links := l }
    | .added =>
        let l ← enqueue (s.nThreads + 1) l .timeQueue (.timeq th) s.waitTime until_
        return { s with
          links := l
          status := Function.update s.status th (.blocked until_) }

/-- Take the thread `t` off its wait queue and let it run, alerted or not. -/
def release (s : State) (t : Nat) (alerted : Bool) : State :=
  { s with
    links := s.links.remove (.waitq t)
    status := Function.update s.status t .running
    alerted := if alerted then Function.update s.alerted t true else s.alerted }

/-- The test of `unblock_event` on the thread in front. -/
def mayGo (s : State) (value : Value) (alerted : Bool) (t : Nat) : Bool :=
  alerted || ecLE (s.waitValue t) value

/-- The loop of `unblock_event` on a count of value `value`: the threads let run,
in order, and the state. -/
def unblockFrom (ec : Nat) (value : Value) (alerted : Bool) :
    Nat → State → Except Fault (List Nat × State)
  | 0, _ => .error .endless
  | n + 1, s =>
      if s.links.isEmpty (.waitQueue ec) then .ok ([], s)
      else
        match s.links.next (.waitQueue ec) with
        | none => .error .nullLink
        | some w =>
            match (s.links w).base with
            | none => .error .nullBase
            | some t =>
                if mayGo s value alerted t then
                  (unblockFrom ec value alerted n (release s t alerted)).map
                    fun r => (t :: r.1, r.2)
                else .ok ([], s)

/-- `unblock_event`. -/
def unblockEvent (s : State) (ec : Nat) (value : Value) (alerted : Bool) :
    Except Fault (List Nat × State) :=
  unblockFrom ec value alerted (s.nThreads + 1) s

/-! ## §4. The operations. -/

/-- `events_create`; without room `events_v1.no_resources` is raised. -/
def create (s : State) (room : Bool) : State :=
  if !room then s
  else
    let ec := s.nCounts
    let l := (s.links.init (.ecQueue ec) (some ec)).init (.waitQueue ec) none
    { s with
      links := l.insertBefore .allCounts (.ecQueue ec)
      nCounts := ec + 1
      counts := Function.update s.counts ec (some ⟨0#64, .none⟩) }

/-- `events_destroy`: the waiters are alerted. -/
def destroy (s : State) (ec : Nat) : Except Fault (List Nat × State) :=
  match s.counts ec with
  | none => .error .noCount
  | some count =>
      (unblockEvent s ec count.value true).map fun r =>
        (r.1, { r.2 with
          links := r.2.links.remove (.ecQueue ec)
          counts := Function.update r.2.counts ec none })

/-- Set the value of a count. -/
def setValue (s : State) (ec : Nat) (count : EventCount) (value : Value) : State :=
  { s with counts := Function.update s.counts ec (some { count with value := value }) }

/-- `events_advance`: the threads let run, and the state. -/
def advance (s : State) (ec : Nat) (increment : Value) : Except Fault (List Nat × State) :=
  match s.counts ec with
  | none => .error .noCount
  | some count =>
      let value := count.value + increment
      (unblockEvent (setValue s ec count value) ec value false).map fun r =>
        (r.1, if count.epType = .tx then { r.2 with sent := (ec, value) :: r.2.sent } else r.2)

/-- The receiving side of `events_await`: take over the value of the channel. -/
def syncReceiver (s : State) (ec : Nat) (count : EventCount) (rxVal : Value) :
    Except Fault (Value × State) :=
  if count.epType = .rx then
    (unblockEvent (setValue s ec count rxVal) ec rxVal false).map fun r => (rxVal, r.2)
  else .ok (count.value, s)

/-- `events_await`. -/
def await (s : State) (th ec : Nat) (value rxVal : Value) : Except Fault State :=
  match s.counts ec with
  | none => .error .noCount
  | some count =>
      if ecLE value count.value then .ok s
      else do
        let (result, s) ← syncReceiver s ec count rxVal
        if ecGT value result then blockEvent s th (some ec) value forever .added else .ok s

/-- The deadline of `events_await_until`: a negative one is none. -/
def deadline (until_ : Int) : Int := if until_ < 0 then forever else until_

/-- `events_await_until`; `now` and `now'` are the clock at its first and at its
last look. -/
def awaitUntil (s : State) (th : Nat) (ec : Option Nat) (value : Value) (until_ : Int)
    (now now' : Int) (rxVal : Value) (answer : TimeoutAnswer) : Except Fault State :=
  match ec with
  | none =>
      if inFuture (deadline until_) now then blockEvent s th none value (deadline until_) answer
      else .ok s
  | some ec =>
      match s.counts ec with
      | none => .error .noCount
      | some count =>
          if ecLE value count.value || deadline until_ ≤ now then .ok s
          else do
            let (result, s) ← syncReceiver s ec count rxVal
            if ecGT value result && inFuture (deadline until_) now' then
              blockEvent s th (some ec) value (deadline until_) answer
            else .ok s

/-- An instance with its threads and no event counts. -/
def fresh (nThreads : Nat) : State where
  nThreads := nThreads
  links
    | .waitq th => ⟨.waitq th, .waitq th, some th⟩
    | .timeq th => ⟨.timeq th, .timeq th, some th⟩
    | node => ⟨node, node, none⟩
  waitValue _ := 0#64
  waitTime _ := 0
  status _ := .running
  alerted _ := false
  nCounts := 0
  counts _ := none
  sent := []

/-! ## §5. Runs. -/

/-- A call by a thread, or a thread let run from outside. -/
inductive Call where
  | create (room : Bool)
  | destroy (ec : Nat)
  | advance (ec : Nat) (increment : Value)
  | await (th ec : Nat) (value rxVal : Value)
  | awaitUntil (th : Nat) (ec : Option Nat) (value : Value) (until_ now now' : Int)
      (rxVal : Value) (answer : TimeoutAnswer)
  | wake (th : Nat)

/-- The state a call leaves. -/
def exec (s : State) : Call → Except Fault State
  | .create room => .ok (create s room)
  | .destroy ec => (destroy s ec).map Prod.snd
  | .advance ec increment => (advance s ec increment).map Prod.snd
  | .await th ec value rxVal => await s th ec value rxVal
  | .awaitUntil th ec value until_ now now' rxVal answer =>
      awaitUntil s th ec value until_ now now' rxVal answer
  | .wake th => .ok { s with status := Function.update s.status th .running }

/-- The states reached from `s₀` by calls that return, each one allowed by `ok` in
the state it is made in. -/
inductive Run (ok : State → Call → Prop) (s₀ : State) : State → Prop
  | nil : Run ok s₀ s₀
  | step {s s' : State} {c : Call} : Run ok s₀ s → ok s c → exec s c = .ok s' → Run ok s₀ s'

end Metta.Events
