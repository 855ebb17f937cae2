/-
  Metta.Events.Attach — event counts and channels, `events_attach` and
  `events_attach_pair` of modules/tcb/root_domain/events.cpp.

  A count is attached to an endpoint of a channel, alone or together with the
  count of the other direction.  Both ways look at the state of the endpoint
  first.  But `events_attach` asks for the endpoint that the count has, which
  is none yet, and `events_attach_pair` for the one that it will get:

    • `attach`, `attachPair` — the two ways,
    • `SameAsBoth` — a pair is attached as its two ends one after the other,
    • `attach_pair_same_iff` — when it is.

  The processor is code outside: `Vcpu` is what it answers, and what the
  dispatcher answers when a handler cannot be attached.  The handler of a count
  has null methods, so that a count that is attached behind another one calls
  null.  A call that raises leaves no state here, and the critical section is
  left out.
-/
import Metta.Events.Queue
import Metta.Exceptions.Def

namespace Metta.Events

open Metta.Machine Metta.Exceptions

/-! ## §1. Channels. -/

/-- `channel_v1::endpoint`. -/
abbrev Endpoint := BitVec 32

/-- `NULL_EP`. -/
def nullEp : Endpoint := 0

/-- `channel_v1::state`. -/
inductive ChannelState where
  | free
  | local
  | connected
  | dead
  deriving DecidableEq, Repr

/-- `channel_v1.invalid`, with what it is raised with. -/
def invalid (args : Nat) : Exn := ⟨"channel_v1.invalid", args⟩

/-- `channel_v1.bad_state`. -/
def badState : Exn := ⟨"channel_v1.bad_state", 0⟩

/-- A call does not return. -/
inductive Failure where
  | fault (fault : Fault)
  | raised (exn : Exn)
  | panic (message : String)
  deriving DecidableEq

/-- What `query_channel` returns. -/
structure Query where
  state : ChannelState
  epType : EndpointType
  rxVal : Value
  rxAck : Value
  deriving DecidableEq, Repr

/-- The processor, and the dispatcher when it raises. -/
structure Vcpu where
  query : Endpoint → Except Exn Query
  send : Endpoint → Value → Except Exn Unit
  attach : Endpoint → Except Exn Unit

/-- A `channel_notify_v1::closure_t`: that of a count, or of somebody else. -/
inductive Handler where
  | count (ec : Nat)
  | other (n : Nat)
  deriving DecidableEq, Repr

/-- The instance with what its counts have of channels. -/
structure Instance where
  base : State
  /-- `event_count_t::ep`. -/
  ep : Nat → Endpoint
  /-- `event_count_t::prev_notify` and `next_notify`. -/
  prevNotify : Nat → Option Handler
  nextNotify : Nat → Option Handler
  /-- `notify_closure` has its methods. -/
  closed : Nat → Bool
  /-- The handlers of the dispatcher. -/
  handler : Endpoint → Option Handler
  /-- What `set_link` has told the handlers of others. -/
  before : Nat → Option Handler
  after : Nat → Option Handler

/-- `event_v1::pair`. -/
structure EventPair where
  receiver : Nat
  sender : Nat

/-- `channel_v1::pair`. -/
structure ChannelPair where
  receiver : Endpoint
  sender : Endpoint

/-! ## §2. Attaching. -/

/-- The tests on the answer of `query_channel`. -/
def Query.check (a : Query) (type : EndpointType) (channel : Endpoint) : Except Failure Unit :=
  if a.state = .connected then
    if a.epType ≠ type then .error (.raised (invalid channel.toNat)) else .ok ()
  else if a.state ≠ .local then .error (.raised badState)
  else .ok ()

namespace Vcpu

/-- `vcpu->query_channel(ep, ..)`. -/
def queryChannel (v : Vcpu) (ep : Endpoint) : Except Failure Query :=
  (v.query ep).mapError .raised

end Vcpu

namespace Instance

/-- The count, which must exist. -/
def count (i : Instance) (ec : Nat) : Except Failure EventCount :=
  match i.base.counts ec with
  | none => .error (.fault .noCount)
  | some count => .ok count

/-- `event_count->ep = channel; event_count->ep_type = type`. -/
def setEndpoint (i : Instance) (ec : Nat) (count : EventCount) (channel : Endpoint)
    (type : EndpointType) : Instance :=
  { i with
    base := { i.base with
      counts := Function.update i.base.counts ec (some { count with epType := type }) }
    ep := Function.update i.ep ec channel }

/-- `set_link` with `position_before`. -/
def setLinkBefore (i : Instance) (link : Option Handler) : Handler → Except Failure Instance
  | .count _ => .error (.fault .nullMethod)
  | .other n => .ok { i with before := Function.update i.before n link }

/-- `set_link` with `position_after`. -/
def setLinkAfter (i : Instance) (link : Option Handler) : Handler → Except Failure Instance
  | .count _ => .error (.fault .nullMethod)
  | .other n => .ok { i with after := Function.update i.after n link }

/-- A receiving count puts its handler in front of that of the endpoint. -/
def attachNotify (i : Instance) (v : Vcpu) (ec : Nat) (channel : Endpoint) :
    Except Failure Instance :=
  match v.attach channel with
  | .error exn => .error (.raised exn)
  | .ok () =>
      let next := i.handler channel
      let i := { i with
        closed := Function.update i.closed ec true
        handler := Function.update i.handler channel (some (.count ec))
        nextNotify := Function.update i.nextNotify ec next
        prevNotify := Function.update i.prevNotify ec none }
      match next with
      | none => .ok i
      | some next => i.setLinkBefore (some (.count ec)) next

/-- `event_count->value = rx_val`, and who may go then goes. -/
def takeValue (i : Instance) (ec : Nat) (count : EventCount) (rxVal : Value) :
    Except Failure (List Nat × Instance) :=
  match unblockEvent (setValue i.base ec count rxVal) ec rxVal false with
  | .error f => .error (.fault f)
  | .ok (woken, base) => .ok (woken, { i with base })

/-- `vcpu->send(event_count->ep, event_count->value)`. -/
def sendValue (i : Instance) (v : Vcpu) (ec : Nat) (count : EventCount) :
    Except Failure Instance :=
  match v.send (i.ep ec) count.value with
  | .error exn => .error (.raised exn)
  | .ok () => .ok { i with base := { i.base with sent := (ec, count.value) :: i.base.sent } }

end Instance

/-- The rest of `events_attach` once the channel is found in order. -/
def finishAttach (v : Vcpu) (i : Instance) (ec : Nat) (count : EventCount) (channel : Endpoint)
    (type : EndpointType) (a : Query) : Except Failure (List Nat × Instance) := do
  let i := i.setEndpoint ec count channel type
  let i ← if type = .rx then i.attachNotify v ec channel else pure i
  if a.state = .connected then
    if type = .rx then i.takeValue ec { count with epType := type } a.rxVal
    else return ([], ← i.sendValue v ec count)
  else return ([], i)

/-- `events_attach`: the threads let run, and the instance. -/
def attach (v : Vcpu) (i : Instance) (ec : Nat) (channel : Endpoint) (type : EndpointType) :
    Except Failure (List Nat × Instance) := do
  let count ← i.count ec
  let a ← v.queryChannel (i.ep ec)
  a.check type channel
  if count.epType ≠ .none then throw (.raised (invalid 0))
  finishAttach v i ec count channel type a

/-- The rest of `events_attach_pair` once both channels are found in order. -/
def finishAttachPair (v : Vcpu) (i : Instance) (events : EventPair) (channels : ChannelPair)
    (tx rx : EventCount) (txState rxState : Query) : Except Failure (List Nat × Instance) := do
  let i := i.setEndpoint events.sender tx channels.sender .tx
  let i := i.setEndpoint events.receiver rx channels.receiver .rx
  let i ← i.attachNotify v events.receiver channels.receiver
  let (woken, i) ←
    if rxState.state = .connected then
      i.takeValue events.receiver { rx with epType := .rx } rxState.rxVal
    else pure ([], i)
  let i ← if txState.state = .connected then i.sendValue v events.sender tx else pure i
  return (woken, i)

/-- `events_attach_pair`. -/
def attachPair (v : Vcpu) (i : Instance) (events : EventPair) (channels : ChannelPair) :
    Except Failure (List Nat × Instance) := do
  let txState ← v.queryChannel channels.sender
  txState.check .tx channels.sender
  let rxState ← v.queryChannel channels.receiver
  rxState.check .rx channels.receiver
  let tx ← i.count events.sender
  if tx.epType ≠ .none then throw (.raised (invalid 0))
  let rx ← i.count events.receiver
  if rx.epType ≠ .none then throw (.raised (invalid 0))
  finishAttachPair v i events channels tx rx txState rxState

/-- The sender is attached and then the receiver. -/
def attachBoth (v : Vcpu) (i : Instance) (events : EventPair) (channels : ChannelPair) :
    Except Failure (List Nat × Instance) := do
  let (woken, i) ← attach v i events.sender channels.sender .tx
  let (woken', i) ← attach v i events.receiver channels.receiver .rx
  return (woken ++ woken', i)

/-! ## §3. When the two ways are the same. -/

/-- The count is not attached. -/
structure Unattached (i : Instance) (ec : Nat) (count : EventCount) : Prop where
  counts : i.base.counts ec = some count
  epType : count.epType = .none
  ep : i.ep ec = nullEp

/-- Both ways have ended with the same counts, endpoints and handlers, and have let the
same threads run. -/
structure Alike (r r' : List Nat × Instance) : Prop where
  woken : r.1 = r'.1
  counts : r.2.base.counts = r'.2.base.counts
  ep : r.2.ep = r'.2.ep
  prevNotify : r.2.prevNotify = r'.2.prevNotify
  nextNotify : r.2.nextNotify = r'.2.nextNotify
  handler : r.2.handler = r'.2.handler
  before : r.2.before = r'.2.before
  after : r.2.after = r'.2.after

/-- The call raises an exception. -/
def Raises {α : Type} (r : Except Failure α) : Prop := ∃ exn, r = .error (.raised exn)

/-- A pair is attached as its two ends are. -/
def SameAsBoth (v : Vcpu) (i : Instance) (events : EventPair) (channels : ChannelPair) : Prop :=
  (Raises (attachPair v i events channels) ↔ Raises (attachBoth v i events channels)) ∧
  ∀ r r', attachPair v i events channels = .ok r → attachBoth v i events channels = .ok r' →
    Alike r r'

/-- The endpoint may be attached as one of this type. -/
def Query.Fit (a : Query) (type : EndpointType) : Prop :=
  a.state = .connected ∧ a.epType = type ∨ a.state = .local

/-- A count is attached to the endpoint, and its handler has no `set_link`. -/
def Stuck (i : Instance) (channel : Endpoint) : Prop := ∃ ec, i.handler channel = some (.count ec)

/-- The processor takes both endpoints, and the value of the sender if that is connected and
the receiver is not stuck. -/
structure Takes (v : Vcpu) (i : Instance) (channels : ChannelPair) (value : Value) (s r : Query) :
    Prop where
  sender : v.query channels.sender = .ok s
  receiver : v.query channels.receiver = .ok r
  senderFit : s.Fit .tx
  receiverFit : r.Fit .rx
  sent : ¬ Stuck i channels.receiver → s.state = .connected → v.send channels.sender value = .ok ()

/-- A receiving channel that is connected has the value that the count has, and nobody in
front waits for it. -/
def Nothing (s : State) (q : List Nat) (value : Value) (r : Query) : Prop :=
  r.state = .connected → r.rxVal = value ∧ ∀ t ∈ q.head?, mayGo s value false t = false

variable {v : Vcpu} {i : Instance} {ec : Nat} {count : EventCount} {channel : Endpoint}
  {type : EndpointType} {a : Query}

theorem check_of_fit (h : a.Fit type) : a.check type channel = .ok () := by
  rcases h with ⟨hstate, htype⟩ | hstate
  · simp [Query.check, hstate, htype]
  · simp [Query.check, hstate]

theorem check_of_not_fit (channel : Endpoint) (h : ¬ a.Fit type) : ∃ exn, a.check type channel = .error (.raised exn) := by
  rw [Query.Fit, not_or] at h
  by_cases hstate : a.state = .connected
  · exact ⟨_, by rw [Query.check, if_pos hstate, if_pos fun htype => h.1 ⟨hstate, htype⟩]⟩
  · exact ⟨_, by rw [Query.check, if_neg hstate, if_pos h.2]⟩

/-- The endpoint is asked for and is in order. -/
theorem queryChannel_of_fit {α : Type} (k : Query → Except Failure α) {ep : Endpoint}
    (hquery : v.query ep = .ok a) (hfit : a.Fit type) :
    (do let a ← v.queryChannel ep; a.check type channel; k a) = k a := by
  have hcheck : a.check type channel = .ok () := check_of_fit hfit
  simp only [Vcpu.queryChannel, hquery, Except.mapError, hcheck, bind, Except.bind]

/-- The endpoint is asked for and is not. -/
theorem queryChannel_raises {α : Type} (k : Query → Except Failure α) {ep : Endpoint}
    (hno : ∀ a, v.query ep = .ok a → ¬ a.Fit type) :
    Raises (do let a ← v.queryChannel ep; a.check type channel; k a) := by
  cases hquery : v.query ep with
  | error exn =>
      exact ⟨exn, by simp only [Vcpu.queryChannel, hquery, Except.mapError, bind, Except.bind]⟩
  | ok a =>
      obtain ⟨exn, hcheck⟩ := check_of_not_fit channel (hno a hquery)
      refine ⟨exn, ?_⟩
      simp only [Vcpu.queryChannel, hquery, Except.mapError, hcheck, bind, Except.bind]

/-- An endpoint that is in order is attached. -/
theorem attach_of_fit (h : Unattached i ec count) (hquery : v.query nullEp = .ok a)
    (hfit : a.Fit type) :
    attach v i ec channel type = finishAttach v i ec count channel type a := by
  rw [attach, Instance.count, h.counts, h.ep]
  refine (queryChannel_of_fit _ hquery hfit).trans ?_
  rw [h.epType]
  rfl

/-- Any other raises. -/
theorem attach_raises (channel : Endpoint) (h : Unattached i ec count)
    (hno : ∀ a, v.query nullEp = .ok a → ¬ a.Fit type) :
    Raises (attach v i ec channel type) := by
  rw [attach, Instance.count, h.counts, h.ep]
  exact queryChannel_raises _ hno

namespace Instance

theorem attachNotify_ok (i : Instance) (ec : Nat) (h : v.attach channel = .ok ())
    (hfree : ¬ Stuck i channel) :
    ∃ j, i.attachNotify v ec channel = .ok j ∧ j.base = i.base ∧ j.ep = i.ep := by
  rw [attachNotify, h]
  cases hnext : i.handler channel with
  | none => exact ⟨_, rfl, rfl, rfl⟩
  | some next =>
      cases next with
      | count ec' => exact absurd ⟨ec', hnext⟩ hfree
      | other n => exact ⟨_, rfl, rfl, rfl⟩

theorem attachNotify_stuck (i : Instance) (ec : Nat) (h : v.attach channel = .ok ())
    (hstuck : Stuck i channel) :
    i.attachNotify v ec channel = .error (.fault .nullMethod) := by
  obtain ⟨ec', hnext⟩ := hstuck
  rw [attachNotify, h]
  simp only [hnext]
  rfl

theorem takeValue_ok {q : List Nat} (W : Waiting i.base ec q) (count : EventCount)
    (rxVal : Value) :
    ∃ base, i.takeValue ec count rxVal
        = .ok (q.takeWhile (mayGo i.base rxVal false), { i with base }) ∧
      base.counts = Function.update i.base.counts ec (some { count with value := rxVal }) := by
  have W' : Waiting (setValue i.base ec count rxVal) ec q := ⟨W.ring, W.base, W.thread⟩
  obtain ⟨base, hok, -, K, -⟩ := @unblockFrom_spec ec rxVal false (i.base.nThreads + 1) _ _ W'
    W.length_lt
  have hunblock : unblockEvent (setValue i.base ec count rxVal) ec rxVal false
      = .ok (q.takeWhile (mayGo i.base rxVal false), base) := hok
  refine ⟨base, ?_, K.counts⟩
  rw [takeValue, hunblock]

end Instance

section Pair

variable {events : EventPair} {channels : ChannelPair} {tx rx : EventCount}

/-- The instance with both endpoints set. -/
def placed (i : Instance) (events : EventPair) (channels : ChannelPair) (tx rx : EventCount) :
    Instance :=
  (i.setEndpoint events.sender tx channels.sender .tx).setEndpoint events.receiver rx
    channels.receiver .rx

/-- The first of the two ends leaves the second as it was. -/
theorem Unattached.setEndpoint {ec' : Nat} (h : Unattached i ec count) (hne : ec ≠ ec')
    (count' : EventCount) (channel : Endpoint) (type : EndpointType) :
    Unattached (i.setEndpoint ec' count' channel type) ec count where
  counts := (Function.update_of_ne hne ..).trans h.counts
  epType := h.epType
  ep := (Function.update_of_ne hne ..).trans h.ep

/-- **One after the other, when the null endpoint is taken for a local one**: both ends are
attached and their channels are not looked at. -/
theorem attachBoth_of_local (channels : ChannelPair) (htx : Unattached i events.sender tx)
    (hrx : Unattached i events.receiver rx) (hne : events.sender ≠ events.receiver)
    (hquery : v.query nullEp = .ok a) (hlocal : a.state = .local) :
    attachBoth v i events channels
      = ((placed i events channels tx rx).attachNotify v events.receiver channels.receiver).map
        fun j => ([], j) := by
  have hrx' := hrx.setEndpoint hne.symm tx channels.sender .tx
  have hfirst : attach v i events.sender channels.sender .tx
      = .ok ([], i.setEndpoint events.sender tx channels.sender .tx) := by
    rw [attach_of_fit htx hquery (.inr hlocal)]
    simp [finishAttach, hlocal, bind, Except.bind, pure, Except.pure]
  simp only [attachBoth, hfirst, bind, Except.bind]
  rw [attach_of_fit hrx' hquery (.inr hlocal)]
  simp only [finishAttach, hlocal, if_true, bind, Except.bind, placed]
  cases Instance.attachNotify _ v events.receiver channels.receiver <;> rfl

/-- One after the other, when the null endpoint is no local one: the endpoint would have to
be of both types. -/
theorem attachBoth_raises (htx : Unattached i events.sender tx)
    (hrx : Unattached i events.receiver rx) (hne : events.sender ≠ events.receiver)
    (hno : ∀ a, v.query nullEp = .ok a → a.state ≠ .local) :
    Raises (attachBoth v i events channels) := by
  have hrx' := hrx.setEndpoint hne.symm tx channels.sender .tx
  by_cases hfit : ∃ a, v.query nullEp = .ok a ∧ a.Fit .tx
  · obtain ⟨a, hquery, hfit⟩ := hfit
    obtain ⟨hstate, htype⟩ := hfit.resolve_right (hno a hquery)
    have hsecond : ∀ j, Unattached j events.receiver rx →
        Raises (attach v j events.receiver channels.receiver .rx) := by
      intro j hj
      refine attach_raises _ hj fun a' hquery' => ?_
      obtain rfl : a = a' := Except.ok.inj (hquery.symm.trans hquery')
      rintro (⟨-, htype'⟩ | hlocal)
      · rw [htype] at htype'
        cases htype'
      · exact hno a hquery hlocal
    cases hsend : v.send channels.sender tx.value with
    | error exn =>
        refine ⟨exn, ?_⟩
        simp only [attachBoth, attach_of_fit htx hquery hfit, finishAttach, hstate,
          Instance.sendValue, Instance.setEndpoint, Function.update_self, hsend, bind, Except.bind,
          if_true, reduceCtorEq, if_false, pure, Except.pure]
    | ok _ =>
        obtain ⟨exn, hraise⟩ := hsecond { i.setEndpoint events.sender tx channels.sender .tx with
          base := { (i.setEndpoint events.sender tx channels.sender .tx).base with
            sent := (events.sender, tx.value) :: i.base.sent } }
          ⟨hrx'.counts, hrx'.epType, hrx'.ep⟩
        refine ⟨exn, ?_⟩
        simp only [Instance.setEndpoint] at hraise
        simp only [attachBoth, attach_of_fit htx hquery hfit, finishAttach, hstate,
          Instance.sendValue, Instance.setEndpoint, Function.update_self, hsend, bind, Except.bind,
          if_true, reduceCtorEq, if_false, pure, Except.pure, hraise]
  · obtain ⟨exn, hraise⟩ := attach_raises channels.sender htx
      fun a hquery hfit' => hfit ⟨a, hquery, hfit'⟩
    exact ⟨exn, by simp only [attachBoth, hraise, bind, Except.bind]⟩

/-- The pair, once both channels are found in order. -/
theorem attachPair_of_fit (htx : Unattached i events.sender tx)
    (hrx : Unattached i events.receiver rx) {s r : Query}
    (hs : v.query channels.sender = .ok s) (hr : v.query channels.receiver = .ok r)
    (hsfit : s.Fit .tx) (hrfit : r.Fit .rx) :
    attachPair v i events channels = finishAttachPair v i events channels tx rx s r := by
  rw [attachPair, queryChannel_of_fit _ hs hsfit, queryChannel_of_fit _ hr hrfit, Instance.count,
    Instance.count, htx.counts, hrx.counts]
  simp only [htx.epType, hrx.epType, bind, Except.bind, ne_eq, not_true_eq_false, if_false]

/-- The values that the pair takes over and sends out. -/
theorem finishAttachPair_of_notify {q : List Nat} (W : Waiting i.base events.receiver q)
    {s r : Query} {j : Instance}
    (hj : (placed i events channels tx rx).attachNotify v events.receiver channels.receiver = .ok j)
    (hbase : j.base = (placed i events channels tx rx).base) :
    ∃ base, base.counts = (if r.state = .connected then
          Function.update j.base.counts events.receiver (some ⟨r.rxVal, .rx⟩)
        else j.base.counts) ∧
      finishAttachPair v i events channels tx rx s r = (do
        let j ← if s.state = .connected then ({ j with base } : Instance).sendValue v events.sender tx
          else pure { j with base }
        return (if r.state = .connected then q.takeWhile (mayGo i.base r.rxVal false) else [], j)) := by
  have W' : Waiting j.base events.receiver q := by
    rw [hbase]
    exact ⟨W.ring, W.base, W.thread⟩
  obtain ⟨base, htake, hcounts⟩ := Instance.takeValue_ok W' { rx with epType := .rx } r.rxVal
  have hgo : mayGo j.base r.rxVal false = mayGo i.base r.rxVal false := by
    rw [hbase]
    rfl
  rw [hgo] at htake
  have hplaced : finishAttachPair v i events channels tx rx s r = (do
      let j ← (placed i events channels tx rx).attachNotify v events.receiver channels.receiver
      let (woken, j) ←
        if r.state = .connected then j.takeValue events.receiver { rx with epType := .rx } r.rxVal
        else pure ([], j)
      let j ← if s.state = .connected then j.sendValue v events.sender tx else pure j
      return (woken, j)) := rfl
  rw [hplaced, hj]
  by_cases hconn : r.state = .connected
  · refine ⟨base, by rw [if_pos hconn, hcounts], ?_⟩
    simp only [if_pos hconn, htake, bind, Except.bind]
  · refine ⟨j.base, by rw [if_neg hconn], ?_⟩
    simp only [if_neg hconn, bind, Except.bind, pure, Except.pure]

/-- **A pair is attached** when the processor takes it. -/
theorem attachPair_of_takes (htx : Unattached i events.sender tx)
    (hrx : Unattached i events.receiver rx) (hne : events.sender ≠ events.receiver) {q : List Nat}
    (W : Waiting i.base events.receiver q) {s r : Query} (h : Takes v i channels tx.value s r)
    (hfree : ¬ Stuck i channels.receiver) {j : Instance}
    (hj : (placed i events channels tx rx).attachNotify v events.receiver channels.receiver = .ok j)
    (hbase : j.base = (placed i events channels tx rx).base)
    (hep : j.ep = (placed i events channels tx rx).ep) :
    ∃ base, attachPair v i events channels
        = .ok (if r.state = .connected then q.takeWhile (mayGo i.base r.rxVal false) else [],
          { j with base }) ∧
      base.counts = if r.state = .connected then
          Function.update j.base.counts events.receiver (some ⟨r.rxVal, .rx⟩)
        else j.base.counts := by
  obtain ⟨base, hcounts, hfinish⟩ := finishAttachPair_of_notify (s := s) (r := r) W hj hbase
  have hsender : j.ep events.sender = channels.sender := by
    rw [hep]
    exact (Function.update_of_ne hne ..).trans (Function.update_self ..)
  rw [attachPair_of_fit htx hrx h.sender h.receiver h.senderFit h.receiverFit, hfinish]
  by_cases hconn : s.state = .connected
  · refine ⟨{ base with sent := (events.sender, tx.value) :: base.sent }, ?_, hcounts⟩
    simp only [if_pos hconn, Instance.sendValue, hsender, h.sent hfree hconn, bind, Except.bind, pure,
      Except.pure]
  · refine ⟨base, ?_, hcounts⟩
    simp only [if_neg hconn, bind, Except.bind, pure, Except.pure]

/-- **A pair raises** when the processor does not take it. -/
theorem attachPair_raises (htx : Unattached i events.sender tx)
    (hrx : Unattached i events.receiver rx) (hne : events.sender ≠ events.receiver) {q : List Nat}
    (W : Waiting i.base events.receiver q)
    (hno : v.attach channels.receiver = .ok () → ¬ ∃ s r, Takes v i channels tx.value s r) :
    Raises (attachPair v i events channels) := by
  by_cases hs : ∃ s, v.query channels.sender = .ok s ∧ s.Fit .tx
  · obtain ⟨s, hs, hsfit⟩ := hs
    by_cases hr : ∃ r, v.query channels.receiver = .ok r ∧ r.Fit .rx
    · obtain ⟨r, hr, hrfit⟩ := hr
      rw [attachPair_of_fit htx hrx hs hr hsfit hrfit]
      cases hattach : v.attach channels.receiver with
      | error exn =>
          refine ⟨exn, ?_⟩
          simp only [finishAttachPair, Instance.attachNotify, hattach, bind, Except.bind]
      | ok u =>
          have hfree : ¬ Stuck i channels.receiver := fun hstuck =>
            hno hattach ⟨s, r, hs, hr, hsfit, hrfit, fun hfree => absurd hstuck hfree⟩
          obtain ⟨j, hj, hbase, hep⟩ :=
            (placed i events channels tx rx).attachNotify_ok events.receiver hattach hfree
          obtain ⟨base, -, hfinish⟩ := finishAttachPair_of_notify (s := s) (r := r) W hj hbase
          have hsender : j.ep events.sender = channels.sender := by
            rw [hep]
            exact (Function.update_of_ne hne ..).trans (Function.update_self ..)
          rw [hfinish]
          -- only the sending is left to go wrong
          have hconn : s.state = .connected := by
            by_contra hnot
            exact hno hattach ⟨s, r, hs, hr, hsfit, hrfit, fun _ hconn => absurd hconn hnot⟩
          cases hsend : v.send channels.sender tx.value with
          | error exn =>
              refine ⟨exn, ?_⟩
              simp only [if_pos hconn, Instance.sendValue, hsender, hsend, bind, Except.bind]
          | ok u => exact absurd ⟨s, r, hs, hr, hsfit, hrfit, fun _ _ => hsend⟩ (hno hattach)
    · rw [attachPair, queryChannel_of_fit _ hs hsfit]
      exact queryChannel_raises _ fun r hquery hfit => hr ⟨r, hquery, hfit⟩
  · exact queryChannel_raises _ fun s hquery hfit => hs ⟨s, hquery, hfit⟩

/-- A pair whose receiver is stuck calls null when the processor takes it. -/
theorem attachPair_stuck (htx : Unattached i events.sender tx)
    (hrx : Unattached i events.receiver rx) {s r : Query} (h : Takes v i channels tx.value s r)
    (hattach : v.attach channels.receiver = .ok ()) (hstuck : Stuck i channels.receiver) :
    attachPair v i events channels = .error (.fault .nullMethod) := by
  have hnotify := (placed i events channels tx rx).attachNotify_stuck events.receiver hattach hstuck
  rw [attachPair_of_fit htx hrx h.sender h.receiver h.senderFit h.receiverFit]
  rw [placed] at hnotify
  simp only [finishAttachPair, hnotify, bind, Except.bind]

/-! ## §4. The two ways. -/

/-- `events_attach` has asked for the null endpoint, and the pair agrees with what it was
told: the endpoint is local, and the channels are taken and bring nothing new; or it is not,
and the channels are not taken either. -/
structure Agrees (v : Vcpu) (i : Instance) (channels : ChannelPair) (q : List Nat)
    (txVal rxVal : Value) : Prop where
  isLocal : (∃ a, v.query nullEp = .ok a ∧ a.state = .local) →
    ∃ s r, Takes v i channels txVal s r ∧
      (¬ Stuck i channels.receiver → Nothing i.base q rxVal r)
  notLocal : (∀ a, v.query nullEp = .ok a → a.state ≠ .local) →
    ¬ ∃ s r, Takes v i channels txVal s r

theorem Raises.ne_ok {α : Type} {r : Except Failure α} (h : Raises r) (x : α) : r ≠ .ok x := by
  obtain ⟨exn, rfl⟩ := h
  simp

theorem not_raises_ok {α : Type} {r : Except Failure α} {x : α} (h : r = .ok x) : ¬ Raises r :=
  fun hraises => hraises.ne_ok x h

theorem takeWhile_eq_nil_iff (p : Nat → Bool) (q : List Nat) :
    q.takeWhile p = [] ↔ ∀ t ∈ q.head?, p t = false := by
  cases q with
  | nil => simp
  | cons t q => simp [List.takeWhile_cons]

/-- The two ways end alike when the channel brings nothing new. -/
theorem alike_iff {j : Instance} {base : State} {q : List Nat} {r : Query}
    (hj : j.base = (placed i events channels tx rx).base)
    (hcounts : base.counts = if r.state = .connected then
        Function.update j.base.counts events.receiver (some ⟨r.rxVal, .rx⟩) else j.base.counts) :
    Alike (if r.state = .connected then q.takeWhile (mayGo i.base r.rxVal false) else [],
        { j with base }) ([], j) ↔ Nothing i.base q rx.value r := by
  have hplaced : j.base.counts events.receiver = some ⟨rx.value, .rx⟩ := by
    rw [hj]
    exact Function.update_self ..
  constructor
  · intro h hconn
    have hvalue : base.counts events.receiver = j.base.counts events.receiver :=
      congrFun h.counts _
    rw [hcounts, if_pos hconn, Function.update_self, hplaced, Option.some_inj,
      EventCount.mk.injEq] at hvalue
    have hwoken : q.takeWhile (mayGo i.base r.rxVal false) = [] := by
      have := h.woken
      rwa [if_pos hconn] at this
    rw [takeWhile_eq_nil_iff, hvalue.1] at hwoken
    exact ⟨hvalue.1, hwoken⟩
  · intro h
    by_cases hconn : r.state = .connected
    · obtain ⟨hvalue, hfront⟩ := h hconn
      rw [hvalue] at hcounts
      refine ⟨?_, ?_, rfl, rfl, rfl, rfl, rfl, rfl⟩
      · rw [if_pos hconn, hvalue]
        exact (takeWhile_eq_nil_iff _ _).mpr hfront
      · rw [hcounts, if_pos hconn]
        exact Function.update_eq_self_iff.mpr hplaced.symm
    · refine ⟨if_neg hconn, ?_, rfl, rfl, rfl, rfl, rfl, rfl⟩
      rw [hcounts, if_neg hconn]

/-- A call that has not raised has ended, or has called null. -/
theorem sameAsBoth_of_ne (hpair : ¬ Raises (attachPair v i events channels))
    (hboth : ¬ Raises (attachBoth v i events channels))
    (halike : ∀ r r', attachPair v i events channels = .ok r →
      attachBoth v i events channels = .ok r' → Alike r r') :
    SameAsBoth v i events channels :=
  ⟨⟨fun h => absurd h hpair, fun h => absurd h hboth⟩, halike⟩

theorem sameAsBoth_of_raises (hpair : Raises (attachPair v i events channels))
    (hboth : Raises (attachBoth v i events channels)) : SameAsBoth v i events channels :=
  ⟨⟨fun _ => hboth, fun _ => hpair⟩, fun r _ hr => absurd hr (hpair.ne_ok r)⟩

/-- The null endpoint is taken for a local one. -/
theorem same_iff_of_local (htx : Unattached i events.sender tx)
    (hrx : Unattached i events.receiver rx) (hne : events.sender ≠ events.receiver) {q : List Nat}
    (W : Waiting i.base events.receiver q) (hattach : v.attach channels.receiver = .ok ())
    (hquery : v.query nullEp = .ok a) (hlocal : a.state = .local) :
    SameAsBoth v i events channels ↔ ∃ s r, Takes v i channels tx.value s r ∧
      (¬ Stuck i channels.receiver → Nothing i.base q rx.value r) := by
  have hboth := attachBoth_of_local channels htx hrx hne hquery hlocal
  -- the two calls after each other do not raise, so neither may the pair
  have hquiet : ¬ Raises (attachBoth v i events channels) := by
    rintro ⟨exn, hraise⟩
    by_cases hstuck : Stuck i channels.receiver
    · have hnotify := (placed i events channels tx rx).attachNotify_stuck events.receiver hattach
        hstuck
      rw [hboth, hnotify] at hraise
      cases hraise
    · obtain ⟨j, hj, -⟩ := (placed i events channels tx rx).attachNotify_ok events.receiver
        hattach hstuck
      rw [hboth, hj] at hraise
      cases hraise
  by_cases htakes : ∃ s r, Takes v i channels tx.value s r
  · obtain ⟨s, r, htakes⟩ := htakes
    by_cases hstuck : Stuck i channels.receiver
    · -- the pair returns no count either, and there is nothing to compare
      have hpair := attachPair_stuck htx hrx htakes hattach hstuck
      refine ⟨fun _ => ⟨s, r, htakes, fun hfree => absurd hstuck hfree⟩, fun _ => ?_⟩
      refine sameAsBoth_of_ne ?_ hquiet ?_
      · rintro ⟨exn, hraise⟩
        rw [hpair] at hraise
        cases hraise
      · intro x x' hx
        rw [hpair] at hx
        cases hx
    · obtain ⟨j, hj, hbase, hep⟩ :=
        (placed i events channels tx rx).attachNotify_ok events.receiver hattach hstuck
      -- both return; the receivers' counts decide
      rw [hj] at hboth
      obtain ⟨base, hpair, hcounts⟩ :=
        attachPair_of_takes htx hrx hne W htakes hstuck hj hbase hep
      have halike := alike_iff (q := q) hbase hcounts
      constructor
      · intro hsame
        exact ⟨s, r, htakes, fun _ => halike.mp (hsame.2 _ _ hpair hboth)⟩
      · rintro ⟨s', r', htakes', hnothing⟩
        obtain rfl : r = r' := Except.ok.inj (htakes.receiver.symm.trans htakes'.receiver)
        refine sameAsBoth_of_ne (not_raises_ok hpair) hquiet fun x x' hx hx' => ?_
        obtain rfl := Except.ok.inj (hpair.symm.trans hx)
        obtain rfl := Except.ok.inj (hboth.symm.trans hx')
        exact halike.mpr (hnothing hstuck)
  · have hpair : Raises (attachPair v i events channels) := attachPair_raises htx hrx hne W fun _ => htakes
    refine ⟨fun hsame => absurd (hsame.1.mp hpair) hquiet, ?_⟩
    rintro ⟨s, r, h, -⟩
    exact absurd ⟨s, r, h⟩ htakes

/-- **Attaching a pair is attaching its ends exactly when the null endpoint happens to
agree**: for two counts that are not attached, any endpoints and any answers of the
processor, when the dispatcher takes the handler.  When it does not, both ways raise. -/
theorem attach_pair_same_iff (htx : Unattached i events.sender tx)
    (hrx : Unattached i events.receiver rx) (hne : events.sender ≠ events.receiver) {q : List Nat}
    (W : Waiting i.base events.receiver q) :
    SameAsBoth v i events channels ↔
      (v.attach channels.receiver = .ok () → Agrees v i channels q tx.value rx.value) := by
  by_cases hlocal : ∃ a, v.query nullEp = .ok a ∧ a.state = .local
  · obtain ⟨a, hquery, hstate⟩ := hlocal
    cases hattach : v.attach channels.receiver with
    | error exn =>
        have hpair : Raises (attachPair v i events channels) := attachPair_raises htx hrx hne W
          fun h => absurd (h.symm.trans hattach) (by simp)
        have hboth : Raises (attachBoth v i events channels) := by
          refine ⟨exn, ?_⟩
          rw [attachBoth_of_local channels htx hrx hne hquery hstate, Instance.attachNotify, hattach]
          rfl
        exact ⟨fun _ h => (by cases h), fun _ => sameAsBoth_of_raises hpair hboth⟩
    | ok u =>
        rw [same_iff_of_local htx hrx hne W hattach hquery hstate]
        refine ⟨fun h _ => ⟨fun _ => h, fun hnot => absurd hstate (hnot a hquery)⟩, fun hagrees => ?_⟩
        exact (hagrees rfl).isLocal ⟨a, hquery, hstate⟩
  · have hno : ∀ a, v.query nullEp = .ok a → a.state ≠ .local :=
      fun a hquery hstate => hlocal ⟨a, hquery, hstate⟩
    have hboth : Raises (attachBoth v i events channels) := attachBoth_raises htx hrx hne hno
    constructor
    · intro hsame hattach
      refine ⟨fun h => absurd h hlocal, fun _ ⟨s, r, htakes⟩ => ?_⟩
      have hpair := hsame.1.mpr hboth
      by_cases hstuck : Stuck i channels.receiver
      · obtain ⟨exn, hraise⟩ := hpair
        rw [attachPair_stuck htx hrx htakes hattach hstuck] at hraise
        cases hraise
      · obtain ⟨j, hj, hbase, hep⟩ :=
          (placed i events channels tx rx).attachNotify_ok events.receiver hattach hstuck
        obtain ⟨base, hok, -⟩ := attachPair_of_takes htx hrx hne W htakes hstuck hj hbase hep
        exact absurd hpair (not_raises_ok hok)
    · intro hagrees
      have hpair : Raises (attachPair v i events channels) := attachPair_raises htx hrx hne W
        fun hattach => (hagrees hattach).notLocal hno
      exact sameAsBoth_of_raises hpair hboth

end Pair

/-- An instance with one thread and two new counts. -/
def twoCounts : Instance where
  base := create (create (fresh 1) true) true
  ep _ := nullEp
  prevNotify _ := none
  nextNotify _ := none
  closed _ := false
  handler _ := none
  before _ := none
  after _ := none

/-- A processor on which no channel has been connected, the null endpoint being `null`. -/
def unconnected (null : ChannelState) : Vcpu where
  query ep := .ok ⟨if ep = nullEp then null else .local, .none, 0, 0⟩
  send _ _ := .ok ()
  attach _ := .ok ()

theorem twoCounts_waiting : Waiting twoCounts.base 1 [] where
  ring := ⟨by simp, by decide, by decide⟩
  base t ht := by
    obtain rfl : t = 0 := by
      have hone : t < 1 := ht
      omega
    decide
  thread t ht := nomatch ht

theorem twoCounts_unattached (ec : Nat) (h : ec < 2) : Unattached twoCounts ec ⟨0, .none⟩ := by
  refine ⟨?_, rfl, rfl⟩
  rcases (by omega : ec = 0 ∨ ec = 1) with rfl | rfl <;> rfl

theorem attach_pair_same_local : SameAsBoth (unconnected .local) twoCounts ⟨1, 0⟩ ⟨1, 2⟩ := by
  refine (attach_pair_same_iff (twoCounts_unattached 0 (by decide))
    (twoCounts_unattached 1 (by decide)) (by decide) twoCounts_waiting).mpr fun _ => ⟨?_, ?_⟩
  · intro _
    refine ⟨⟨.local, .none, 0, 0⟩, ⟨.local, .none, 0, 0⟩, ⟨rfl, rfl, .inr rfl, .inr rfl, ?_⟩, ?_⟩
    · intro _ h
      cases h
    · intro _ h
      cases h
  · intro h
    exact absurd rfl (h _ rfl)

/-- Where the null endpoint is no endpoint, two local channels are attached as a pair, and
one after the other they are not. -/
theorem attach_refuses_local :
    Unattached twoCounts 0 ⟨0, .none⟩ ∧ Unattached twoCounts 1 ⟨0, .none⟩ ∧
      (∃ r, attachPair (unconnected .free) twoCounts ⟨1, 0⟩ ⟨1, 2⟩ = .ok r) ∧
      attach (unconnected .free) twoCounts 0 2 .tx = .error (.raised badState) ∧
      ¬ SameAsBoth (unconnected .free) twoCounts ⟨1, 0⟩ ⟨1, 2⟩ := by
  have hpair : ∃ r, attachPair (unconnected .free) twoCounts ⟨1, 0⟩ ⟨1, 2⟩ = .ok r := ⟨_, rfl⟩
  have hboth : Raises (attachBoth (unconnected .free) twoCounts ⟨1, 0⟩ ⟨1, 2⟩) := ⟨_, rfl⟩
  refine ⟨twoCounts_unattached 0 (by decide), twoCounts_unattached 1 (by decide), hpair, rfl, ?_⟩
  intro hsame
  obtain ⟨r, hr⟩ := hpair
  exact absurd (hsame.1.mpr hboth) (not_raises_ok hr)

end Metta.Events
