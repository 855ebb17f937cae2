/-
  Metta.Events.Queues — the wait queues of several counts.

  A thread waits in one queue at most.  Unblocking and blocking on one count
  leave the queues of the others as they are, and change the status of the
  threads that they are about.

    • `AllWaiting` — the queues of all counts, no thread in two of them,
    • `unblockEvent_all` — unblocking on one count,
    • `blockEvent_all` — blocking on one count that has waiters.
-/
import Metta.Events.WakeUp

namespace Metta.Events

open Metta.Machine

variable {s s' : State} {ec ec' : Nat} {q q' : List Nat} {value v : Value} {alerted : Bool}
  {woken : List Nat} {th : Nat}

/-! ## §1. The threads that are let run. -/

/-- The threads `woken` are let run, alerted or not; nothing else happens to threads. -/
structure Released (s s' : State) (woken : List Nat) (alerted : Bool) : Prop where
  status : ∀ t, s'.status t = if t ∈ woken then .running else s.status t
  alerted : ∀ t, s'.alerted t = if t ∈ woken ∧ alerted = true then true else s.alerted t

theorem Released.nil (s : State) (alerted : Bool) : Released s s [] alerted :=
  ⟨fun t => by simp, fun t => by simp⟩

theorem Released.cons {t : Nat} (h : Released (release s t alerted) s' woken alerted) :
    Released s s' (t :: woken) alerted := by
  refine ⟨fun u => ?_, fun u => ?_⟩
  · rw [h.status u]
    by_cases hu : u ∈ woken
    · rw [if_pos hu, if_pos (List.mem_cons_of_mem _ hu)]
    · rw [if_neg hu]
      by_cases hut : u = t
      · subst hut
        rw [if_pos List.mem_cons_self]
        exact Function.update_self ..
      · rw [if_neg (by simp [hut, hu])]
        exact Function.update_of_ne hut ..
  · rw [h.alerted u]
    cases alerted with
    | false => simp [release]
    | true =>
        by_cases hut : u = t
        · subst hut
          simp [release]
        · simp [release, hut]

/-- Who is let run by `unblock_event`, may go. -/
theorem unblockFrom_released (fuel : Nat) :
    ∀ {s : State} {woken : List Nat}, unblockFrom ec value alerted fuel s = .ok (woken, s') →
      Released s s' woken alerted ∧ ∀ t ∈ woken, mayGo s value alerted t = true := by
  induction fuel with
  | zero =>
      intro s woken h
      cases h
  | succ fuel ih =>
      intro s woken h
      rw [unblockFrom] at h
      split at h
      · cases h
        exact ⟨.nil s' alerted, fun t ht => absurd ht List.not_mem_nil⟩
      cases hnext : s.links.next (.waitQueue ec) with
      | none =>
          rw [hnext] at h
          cases h
      | some w =>
          cases hbase : (s.links w).base with
          | none =>
              simp only [hnext, hbase] at h
              cases h
          | some t =>
              simp only [hnext, hbase] at h
              split at h
              · next hgo =>
                obtain ⟨r, hr, hpair⟩ := map_eq_ok.mp h
                cases hpair
                obtain ⟨hreleased, hmay⟩ := ih hr
                refine ⟨hreleased.cons, fun u hu => ?_⟩
                rcases List.mem_cons.mp hu with rfl | hu
                · exact hgo
                · exact hmay u hu
              · cases h
                exact ⟨.nil s' alerted, fun t ht => absurd ht List.not_mem_nil⟩

/-! ## §2. The other lists. -/

/-- The list is apart from the wait queue of `ec`. -/
def Apart (ec : Nat) (q : List Nat) (nodes : List Node) : Prop :=
  ∀ x ∈ nodes, x ∉ Node.waitQueue ec :: q.map Node.waitq

theorem apart_queue (hne : ec' ≠ ec) (hdisjoint : ∀ u ∈ q', u ∉ q) :
    Apart ec q (.waitQueue ec' :: q'.map .waitq) := by
  intro x hx hmem
  rcases List.mem_cons.mp hx with rfl | hx
  · simp [hne] at hmem
  · obtain ⟨u, hu, rfl⟩ := List.mem_map.mp hx
    have hmem' : u ∈ q := by simpa using hmem
    exact hdisjoint u hu hmem'

theorem apart_allCounts (cs : List Nat) : Apart ec q (.allCounts :: cs.map .ecQueue) := by
  intro x hx hmem
  rcases List.mem_cons.mp hx with rfl | hx
  · simp at hmem
  · obtain ⟨ec', -, rfl⟩ := List.mem_map.mp hx
    simp at hmem

/-- **Unblocking** leaves other lists as they are. -/
theorem unblockFrom_ring (fuel : Nat) :
    ∀ {s : State} {q woken : List Nat}, Waiting s ec q →
      unblockFrom ec value alerted fuel s = .ok (woken, s') →
      (∀ x, (s'.links x).base = (s.links x).base) ∧
      ∀ head xs, Links.Ring s.links head xs → Apart ec q (head :: xs) →
        Links.Ring s'.links head xs := by
  induction fuel with
  | zero =>
      intro s q woken _ h
      cases h
  | succ fuel ih =>
      intro s q woken W h
      rw [unblockFrom] at h
      cases q with
      | nil =>
          rw [if_pos (W.ring.isEmpty_iff.mpr rfl)] at h
          cases h
          exact ⟨fun _ => rfl, fun _ _ R _ => R⟩
      | cons t q =>
          have hempty : ¬ s.links.isEmpty (.waitQueue ec) = true := fun h => by
            have := W.ring.isEmpty_iff.mp h
            simp at this
          have hnext : s.links.next (.waitQueue ec) = some (.waitq t) := W.ring.next_head
          rw [if_neg hempty] at h
          simp only [hnext, W.base t (W.thread t List.mem_cons_self)] at h
          split at h
          · obtain ⟨r, hr, hpair⟩ := map_eq_ok.mp h
            cases hpair
            obtain ⟨hbase, hring⟩ := ih (W.release alerted) hr
            refine ⟨fun x => (hbase x).trans (Links.remove_base ..), fun head xs R hapart => ?_⟩
            have W₀ : Links.Ring s.links (.waitQueue ec) ([] ++ Node.waitq t :: q.map Node.waitq) :=
              W.ring
            refine hring head xs (R.congr fun x hx => W₀.remove_frame (hapart x hx)) ?_
            intro x hx hmem
            refine hapart x hx ?_
            rcases List.mem_cons.mp hmem with rfl | hmem
            · exact List.mem_cons_self
            · exact List.mem_cons_of_mem _ (List.mem_cons_of_mem _ hmem)
          · cases h
            exact ⟨fun _ => rfl, fun _ _ R _ => R⟩

/-- `block_event` without a deadline is an insertion. -/
theorem blockEvent_eq (s : State) (th ec : Nat) (v : Value) (answer : TimeoutAnswer) :
    blockEvent s th (some ec) v forever answer =
      (enqueue (s.nThreads + 1) s.links (.waitQueue ec) (.waitq th)
        (Function.update s.waitValue th v) v).map fun l => { s with
          waitValue := Function.update s.waitValue th v
          waitTime := Function.update s.waitTime th forever
          links := l.init (.timeq th) none
          status := Function.update s.status th (.blocked forever) } := by
  rw [blockEvent, enqueueWait]
  cases enqueue (s.nThreads + 1) s.links (.waitQueue ec) (.waitq th)
    (Function.update s.waitValue th v) v with
  | error f => rfl
  | ok l => simp only [bind, Except.bind, if_true]; rfl

/-- Insertion into one queue leaves the links outside of it as they are. -/
theorem enqueue_other {κ : Type} [LE κ] [DecidableLE κ] {l l' : Links Node Nat} {head : Node}
    {node : Nat → Node} {key : Nat → κ} {k : κ} {t fuel : Nat}
    (R : Links.Ring l head (q.map node)) (hbase : ∀ t ∈ q, (l (node t)).base = some t)
    (hfuel : q.length < fuel) (hq : q ≠ []) (hnew : node t ∉ head :: q.map node)
    (h : enqueue fuel l head (node t) key k = .ok l') {x : Node} (hx : x ∉ head :: q.map node)
    (hxt : x ≠ node t) : (l' x).next = (l x).next ∧ (l' x).prev = (l x).prev := by
  have hnext : l.next head = some ((q.map node).head?.getD head) := by
    rw [R.next_head]
    cases q with
    | nil => exact absurd rfl hq
    | cons t q => rfl
  have hsplit : q.map node = (q.takeWhile (key · ≤ k)).map node
      ++ (q.dropWhile (key · ≤ k)).map node := by
    rw [← List.map_append, List.takeWhile_append_dropWhile]
  rw [enqueue, hnext, findPlace_ring key k R hbase q [] fuel rfl hfuel] at h
  cases h
  rw [hsplit] at R hnew hx
  exact R.insertBefore_frame hnew hx hxt

/-- **Blocking** leaves other lists as they are. -/
theorem blockEvent_ring (W : Waiting s ec q) (hq : q ≠ []) (hnew : th ∉ q)
    (h : blockEvent s th (some ec) v forever .added = .ok s') :
    (∀ x, x ≠ .timeq th → (s'.links x).base = (s.links x).base) ∧
    ∀ head xs, Links.Ring s.links head xs → Apart ec q (head :: xs) →
      .waitq th ∉ head :: xs → .timeq th ∉ head :: xs → Links.Ring s'.links head xs := by
  rw [blockEvent_eq] at h
  obtain ⟨l, hl, rfl⟩ := map_eq_ok.mp h
  have hring : Node.waitq th ∉ Node.waitQueue ec :: q.map Node.waitq := by simpa using hnew
  have hbase : ∀ x, (l x).base = (s.links x).base := by
    obtain ⟨l₁, hl₁, -, hbase⟩ := enqueue_ring (Function.update s.waitValue th v) v W.ring
      (fun t ht => W.base t (W.thread t ht)) hq W.length_lt hring
    rw [hl] at hl₁
    cases hl₁
    exact hbase
  have hinit : ∀ x, x ≠ Node.timeq th → l.init (.timeq th) none x = l x :=
    fun x hx => Function.update_of_ne hx ..
  refine ⟨fun x hx => ?_, fun head xs R hapart hwaitq htimeq => R.congr fun x hx => ?_⟩
  · show ((l.init (.timeq th) none) x).base = _
    rw [hinit x hx, hbase]
  · show ((l.init (.timeq th) none) x).next = _ ∧ ((l.init (.timeq th) none) x).prev = _
    rw [hinit x fun h => htimeq (h ▸ hx)]
    exact enqueue_other W.ring (fun t ht => W.base t (W.thread t ht)) W.length_lt hq hring hl
      (hapart x hx) fun h => hwaitq (h ▸ hx)

/-! ## §3. All queues. -/

/-- The queues of all counts are lists of threads, no thread is in two of them, and the counts
are in a list. -/
structure AllWaiting (s : State) (q : Nat → List Nat) : Prop where
  all : ∃ cs : List Nat, Links.Ring s.links .allCounts (cs.map .ecQueue) ∧
    ∀ ec, (s.counts ec).isSome → ec ∈ cs
  queue : ∀ ec, (s.counts ec).isSome → Waiting s ec (q ec)
  once : ∀ t ec ec', t ∈ q ec → t ∈ q ec' → ec = ec'
  gone : ∀ ec, s.counts ec = none → q ec = []

namespace AllWaiting

variable {s s' : State} {q : Nat → List Nat}

/-- Only links, bases and the number of threads matter. -/
theorem congr (A : AllWaiting s q) (hlinks : s'.links = s.links) (hn : s'.nThreads = s.nThreads)
    (hcounts : ∀ ec, (s'.counts ec).isSome = (s.counts ec).isSome) : AllWaiting s' q where
  all := by
    obtain ⟨cs, R, hcs⟩ := A.all
    exact ⟨cs, hlinks ▸ R, fun ec hec => hcs ec (by rwa [← hcounts])⟩
  queue ec hec := by
    have W := A.queue ec (by rwa [← hcounts])
    exact ⟨hlinks ▸ W.ring, by rw [hlinks, hn]; exact W.base, by rw [hn]; exact W.thread⟩
  once := A.once
  gone ec hnone := by
    refine A.gone ec ?_
    have := hcounts ec
    rw [hnone] at this
    exact Option.isNone_iff_eq_none.mp (by rw [← Option.not_isSome, ← this]; rfl)

theorem setValue (A : AllWaiting s q) {count : EventCount} (hcount : s.counts ec = some count)
    (value : Value) : AllWaiting (setValue s ec count value) q := by
  refine A.congr rfl rfl fun ec' => ?_
  by_cases h : ec' = ec
  · subst h
    simp [Events.setValue, hcount]
  · simp [Events.setValue, h]

/-- **One queue is replaced**, and the other lists are as they were: what is new in it was in
no queue. -/
theorem replace (A : AllWaiting s q) {q' : List Nat} (hec : (s.counts ec).isSome)
    (hcounts : s'.counts = s.counts)
    (hall : ∀ cs : List Nat, Links.Ring s.links .allCounts (cs.map .ecQueue) →
      Links.Ring s'.links .allCounts (cs.map .ecQueue))
    (W : Waiting s' ec q')
    (hothers : ∀ ec', ec' ≠ ec → (s.counts ec').isSome → Waiting s' ec' (q ec'))
    (hnew : ∀ t ∈ q', t ∈ q ec ∨ ∀ ec', t ∉ q ec') :
    AllWaiting s' (Function.update q ec q') := by
  refine ⟨?_, fun ec' hec' => ?_, fun t a b ha hb => ?_, fun ec' hnone => ?_⟩
  · obtain ⟨cs, R, hcs⟩ := A.all
    exact ⟨cs, hall cs R, by rw [hcounts]; exact hcs⟩
  · by_cases h : ec' = ec
    · subst h
      rw [Function.update_self]
      exact W
    · rw [Function.update_of_ne h]
      exact hothers ec' h (by rwa [← hcounts])
  · -- a thread of the queues that is not new in one was in the same queue before
    have hold : ∀ {a}, t ∈ Function.update q ec q' a → t ∈ q a ∨ (a = ec ∧ ∀ b, t ∉ q b) := by
      intro a ha
      by_cases h : a = ec
      · subst h
        rw [Function.update_self] at ha
        exact (hnew t ha).imp id fun hno => ⟨rfl, hno⟩
      · rw [Function.update_of_ne h] at ha
        exact .inl ha
    rcases hold ha with ha | ⟨ha, hno⟩
    · rcases hold hb with hb | ⟨-, hno⟩
      · exact A.once t a b ha hb
      · exact absurd ha (hno a)
    · rcases hold hb with hb | ⟨hb, -⟩
      · exact absurd hb (hno b)
      · rw [ha, hb]
  · rw [hcounts] at hnone
    have hne : ec' ≠ ec := by
      rintro rfl
      rw [hnone] at hec
      cases hec
    rw [Function.update_of_ne hne]
    exact A.gone ec' hnone

/-- **Unblocking on one count**: threads at the front of its queue are let run. -/
theorem unblockEvent (A : AllWaiting s q) (hec : (s.counts ec).isSome) (value : Value)
    (alerted : Bool) :
    ∃ woken s', Events.unblockEvent s ec value alerted = .ok (woken, s') ∧
      AllWaiting s' (Function.update q ec ((q ec).dropWhile (mayGo s value alerted))) ∧
      Kept s s' ∧ Released s s' woken alerted ∧
      ∀ t, t ∈ woken ↔ t ∈ (q ec).takeWhile (mayGo s value alerted) := by
  have W := A.queue ec hec
  obtain ⟨s', hok, W', K, -⟩ := @unblockFrom_spec ec value alerted (s.nThreads + 1) s (q ec) W
    W.length_lt
  obtain ⟨hbase, hring⟩ := unblockFrom_ring _ W hok
  refine ⟨_, s', hok, A.replace hec K.counts (fun cs R => hring _ _ R (apart_allCounts cs)) W'
    (fun ec' hne hec' => ?_) fun t ht => .inl ((List.dropWhile_sublist _).subset ht), K,
    (unblockFrom_released _ hok).1, fun t => Iff.rfl⟩
  -- the nodes of another queue are apart from this one
  have W₁ := A.queue ec' hec'
  refine ⟨hring _ _ W₁.ring (apart_queue hne fun u hu hmem => hne (A.once u ec' ec hu hmem)),
    fun t ht => ?_, by rw [K.nThreads]; exact W₁.thread⟩
  rw [K.nThreads] at ht
  rw [hbase]
  exact W₁.base t ht

/-- **Blocking on a count that has waiters**: the thread is in its queue too. -/
theorem blockEvent (A : AllWaiting s q) (hec : (s.counts ec).isSome) (hq : q ec ≠ [])
    (hth : th < s.nThreads) (hnew : ∀ ec, th ∉ q ec) (v : Value) :
    ∃ s', Events.blockEvent s th (some ec) v forever .added = .ok s' ∧
      AllWaiting s' (Function.update q ec (inserted s (q ec) th v)) ∧
      s'.waitValue = Function.update s.waitValue th v ∧ s'.counts = s.counts ∧
      s'.nThreads = s.nThreads ∧ s'.alerted = s.alerted ∧
      s'.status = Function.update s.status th (.blocked forever) := by
  have W := A.queue ec hec
  obtain ⟨s', hok, W', hwait, hcounts, hn, hstatus⟩ :=
    blockEvent_waiting v .added W hq hth (hnew ec)
  have halerted : s'.alerted = s.alerted := by
    rw [blockEvent_eq] at hok
    obtain ⟨l, -, rfl⟩ := map_eq_ok.mp hok
    rfl
  obtain ⟨hbase, hring⟩ := blockEvent_ring W hq (hnew ec) hok
  refine ⟨s', hok, A.replace hec hcounts
    (fun cs R => hring _ _ R (apart_allCounts cs) (by simp) (by simp)) W'
    (fun ec' hne hec' => ?_) fun t ht => ?_, hwait, hcounts, hn, halerted, hstatus⟩
  · have W₁ := A.queue ec' hec'
    refine ⟨hring _ _ W₁.ring (apart_queue hne fun u hu hmem => hne (A.once u ec' ec hu hmem))
      (by simpa using hnew ec') (by simp), fun t ht => ?_, by rw [hn]; exact W₁.thread⟩
    rw [hn] at ht
    rw [hbase _ (by simp)]
    exact W₁.base t ht
  · rcases mem_inserted.mp ht with rfl | ht
    · exact .inr hnew
    · exact .inl ht

/-- **Destroying a count**: its waiters are alerted, and its queue is no more. -/
theorem destroy (A : AllWaiting s q) {count : EventCount} (hcount : s.counts ec = some count) :
    ∃ woken s', Events.destroy s ec = .ok (woken, s') ∧
      AllWaiting s' (Function.update q ec []) ∧ Released s s' woken true ∧
      (∀ t, t ∈ woken ↔ t ∈ q ec) ∧ s'.nThreads = s.nThreads ∧ s'.waitValue = s.waitValue ∧
      s'.counts = Function.update s.counts ec none := by
  have hec : (s.counts ec).isSome := by rw [hcount]; rfl
  obtain ⟨woken, s₁, hok, A₁, K, R, hmem⟩ := A.unblockEvent hec count.value true
  have hall : ∀ t, mayGo s count.value true t = true := fun t => rfl
  have hdrop : (q ec).dropWhile (mayGo s count.value true) = [] :=
    List.dropWhile_eq_nil_iff.mpr fun t _ => hall t
  have htake : (q ec).takeWhile (mayGo s count.value true) = q ec :=
    List.takeWhile_eq_self_iff.mpr fun t _ => hall t
  rw [hdrop] at A₁
  rw [htake] at hmem
  obtain ⟨cs, Rall, hcs⟩ := A₁.all
  obtain ⟨ys, zs, rfl⟩ := List.append_of_mem (hcs ec (by rw [K.counts]; exact hec))
  rw [List.map_append, List.map_cons] at Rall
  have hframe : ∀ ec', ∀ x ∈ Node.waitQueue ec' :: (Function.update q ec [] ec').map Node.waitq,
      (s₁.links.remove (.ecQueue ec) x).next = (s₁.links x).next ∧
        (s₁.links.remove (.ecQueue ec) x).prev = (s₁.links x).prev := by
    intro ec' x hx
    refine Rall.remove_frame fun hin => ?_
    rcases List.mem_cons.mp hx with rfl | hx
    · simp at hin
    · obtain ⟨u, -, rfl⟩ := List.mem_map.mp hx
      simp at hin
  let s' : State := { s₁ with
    links := s₁.links.remove (.ecQueue ec)
    counts := Function.update s₁.counts ec none }
  have hlive : ∀ {ec'}, (s'.counts ec').isSome → ec' ≠ ec ∧ (s₁.counts ec').isSome := by
    intro ec' h
    by_cases hne : ec' = ec
    · subst hne
      simp [s'] at h
    · exact ⟨hne, by simpa [s', hne] using h⟩
  refine ⟨woken, s', by rw [Events.destroy, hcount]; simp only [hok]; rfl,
    ⟨?_, fun ec' hec' => ?_, A₁.once, fun ec' hnone => ?_⟩, ⟨R.status, R.alerted⟩, hmem,
    K.nThreads, K.waitValue, ?_⟩
  · refine ⟨ys ++ zs, by rw [List.map_append]; exact Rall.remove, fun ec' hec' => ?_⟩
    obtain ⟨hne, hec'⟩ := hlive hec'
    simpa [hne] using hcs ec' hec'
  · obtain ⟨-, hec'⟩ := hlive hec'
    have W := A₁.queue ec' hec'
    exact ⟨W.ring.congr (hframe ec'), fun t ht => (Links.remove_base ..).trans (W.base t ht),
      W.thread⟩
  · by_cases hne : ec' = ec
    · rw [hne, Function.update_self]
    · exact A₁.gone ec' (by simpa [s', hne] using hnone)
  · show Function.update s₁.counts ec none = _
    rw [K.counts]

end AllWaiting

end Metta.Events
