/-
  Metta.Events.Instance — the queues of an instance from its creation on.

  `WellFormed` is what the queues are meant to be along every run.  They are,
  as long as no thread gets to be put into one: every queue is created empty,
  and the insertion of `block_event` starts with `next()` of its head, which
  answers null for an empty list, and dereferences the answer.

    • `Idle` — all queues empty, and the list of all counts in order,
    • `Inserts` — the call links a thread into a queue,
    • `queues_wellformed_along_runs` — the runs, and that the next call does
      as it should exactly when it does not insert.
-/
import Metta.Events.Queue

namespace Metta.Events

open Metta.Machine

/-! ## §1. What the queues are meant to be. -/

/-- The wait queues hold the threads `waiting`, the time queue the threads `timed`:
well-formed lists whose links know their thread, no thread in two wait queues,
and in the time queue exactly the threads blocked with a deadline. -/
structure WellFormed (s : State) (waiting : Nat → List Nat) (timed : List Nat) : Prop where
  wait : ∀ ec, (s.counts ec).isSome →
    Links.Ring s.links (.waitQueue ec) ((waiting ec).map Node.waitq)
  time : Links.Ring s.links .timeQueue (timed.map Node.timeq)
  once : ∀ t ec ec', t ∈ waiting ec → t ∈ waiting ec' → ec = ec'
  pending : ∀ t, t ∈ timed ↔ ∃ u, s.status t = .blocked u ∧ u ≠ forever
  waitBase : ∀ ec, ∀ t ∈ waiting ec, (s.links (.waitq t)).base = some t
  timeBase : ∀ t ∈ timed, (s.links (.timeq t)).base = some t

/-! ## §2. Empty queues. -/

/-- All queues are empty; `cs` are the counts, in the order of their creation. -/
structure Idle (s : State) (cs : List Nat) : Prop where
  all : Links.Ring s.links .allCounts (cs.map Node.ecQueue)
  live : ∀ ec, ec ∈ cs ↔ (s.counts ec).isSome
  bound : ∀ ec, s.nCounts ≤ ec → s.counts ec = none
  wait : ∀ ec ∈ cs, Links.Ring s.links (.waitQueue ec) []
  time : Links.Ring s.links .timeQueue []
  idle : ∀ t u, s.status t = .blocked u → u = forever

namespace Idle

variable {s s' : State} {cs : List Nat} {ec th : Nat}

theorem wellFormed (I : Idle s cs) : WellFormed s (fun _ => []) [] where
  wait ec hec := I.wait ec ((I.live ec).mpr hec)
  time := I.time
  once t _ _ ht := nomatch ht
  pending t := by
    constructor
    · intro ht
      cases ht
    · rintro ⟨u, hu, hne⟩
      exact absurd (I.idle t u hu) hne
  waitBase _ t ht := nomatch ht
  timeBase t ht := nomatch ht

theorem fresh_idle (n : Nat) : Idle (fresh n) [] where
  all := ⟨by simp, rfl, rfl⟩
  live ec := by simp [fresh]
  bound _ _ := rfl
  wait ec hec := nomatch hec
  time := ⟨by simp, rfl, rfl⟩
  idle t u h := nomatch h

/-- Links of threads may change while the queues are empty. -/
theorem congr (I : Idle s cs)
    (hl : ∀ x, (∀ t, x ≠ .waitq t) → (∀ t, x ≠ .timeq t) → s'.links x = s.links x)
    (hcounts : s'.counts = s.counts) (hn : s'.nCounts = s.nCounts)
    (hidle : ∀ t u, s'.status t = .blocked u → u = forever) : Idle s' cs := by
  have hring : ∀ {head : Node} {xs : List Node}, Links.Ring s.links head xs →
      (∀ x ∈ head :: xs, (∀ t, x ≠ .waitq t) ∧ ∀ t, x ≠ .timeq t) →
      Links.Ring s'.links head xs := by
    intro head xs R hxs
    refine R.congr fun x hx => ?_
    rw [hl x (hxs x hx).1 (hxs x hx).2]
    exact ⟨rfl, rfl⟩
  refine ⟨hring I.all ?_, ?_, ?_, fun ec hec => hring (I.wait ec hec) ?_, hring I.time ?_, hidle⟩
  · intro x hx
    rcases List.mem_cons.mp hx with rfl | hx
    · simp
    · obtain ⟨ec, -, rfl⟩ := List.mem_map.mp hx
      simp
  · rw [hcounts]
    exact I.live
  · rw [hcounts, hn]
    exact I.bound
  · simp
  · simp

/-- Unblocking an empty queue does nothing. -/
theorem unblockEvent_eq (I : Idle s cs) (hec : ec ∈ cs) (value : Value) (alerted : Bool) :
    unblockEvent s ec value alerted = .ok ([], s) := by
  have hempty : s.links.isEmpty (.waitQueue ec) = true := (I.wait ec hec).isEmpty_iff.mpr rfl
  rw [unblockEvent, unblockFrom, if_pos hempty]

/-- A new value of a count moves no thread. -/
theorem setValue (I : Idle s cs) (hec : ec ∈ cs) (count : EventCount) (value : Value) :
    Idle (setValue s ec count value) cs where
  all := I.all
  live ec' := by
    by_cases h : ec' = ec
    · subst h
      simpa [Events.setValue] using hec
    · simpa [Events.setValue, h] using I.live ec'
  bound ec' h := by
    have hne : ec' ≠ ec := by
      rintro rfl
      have := (I.live ec').mp hec
      rw [I.bound ec' h] at this
      cases this
    exact (Function.update_of_ne hne ..).trans (I.bound ec' h)
  wait := I.wait
  time := I.time
  idle := I.idle

/-! ## §3. The operations on empty queues. -/

theorem create (I : Idle s cs) (room : Bool) : ∃ cs', Idle (create s room) cs' := by
  cases room with
  | false => exact ⟨cs, I⟩
  | true =>
      have hnew : s.nCounts ∉ cs := by
        intro h
        have := (I.live s.nCounts).mp h
        rw [I.bound s.nCounts le_rfl] at this
        cases this
      -- the links of the new count, then its place at the end of the list
      let l := (s.links.init (.ecQueue s.nCounts) (some s.nCounts)).init
        (.waitQueue s.nCounts) none
      have hl : ∀ x, x ≠ .ecQueue s.nCounts → x ≠ .waitQueue s.nCounts → l x = s.links x := by
        intro x h1 h2
        exact (Function.update_of_ne h2 ..).trans (Function.update_of_ne h1 ..)
      have hn : Node.ecQueue s.nCounts ∉ Node.allCounts :: (cs.map Node.ecQueue ++ []) := by
        simpa using hnew
      have R : Links.Ring l .allCounts (cs.map Node.ecQueue ++ []) := by
        rw [List.append_nil]
        refine I.all.congr fun x hx => ?_
        rw [hl x]
        · exact ⟨rfl, rfl⟩
        · rintro rfl
          exact hn (by simpa using hx)
        · rintro rfl
          simp at hx
      have hframe : ∀ x, (∀ ec, x ≠ .ecQueue ec) → x ≠ .allCounts →
          (l.insertBefore .allCounts (.ecQueue s.nCounts) x).next = (l x).next ∧
            (l.insertBefore .allCounts (.ecQueue s.nCounts) x).prev = (l x).prev := by
        intro x h1 h2
        refine R.insertBefore_frame hn ?_ (h1 _)
        intro hx
        rcases List.mem_cons.mp hx with hx | hx
        · exact h2 hx
        · obtain ⟨ec, -, hec⟩ := List.mem_map.mp (by simpa using hx)
          exact h1 ec hec.symm
      refine ⟨cs ++ [s.nCounts], ?_, ?_, ?_, ?_, ?_, I.idle⟩
      · have := R.insertBefore hn
        rw [List.map_append]
        exact this
      · intro ec
        by_cases h : ec = s.nCounts
        · subst h
          simp [Events.create]
        · simpa [Events.create, h] using I.live ec
      · intro ec h
        have h' : s.nCounts + 1 ≤ ec := h
        have hne : ec ≠ s.nCounts := by omega
        exact (Function.update_of_ne hne ..).trans (I.bound ec (by omega))
      · intro ec hec
        by_cases h : ec = s.nCounts
        · subst h
          have hring : Links.Ring l (.waitQueue s.nCounts) [] := Links.ring_init ..
          exact hring.congr fun x hx => by
            rw [List.mem_singleton.mp hx]
            exact hframe _ (by simp) (by simp)
        · have hold : ec ∈ cs := by simpa [h] using hec
          refine (I.wait ec hold).congr fun x hx => ?_
          rw [List.mem_singleton.mp hx, ← hl (.waitQueue ec) (by simp) (by simpa using h)]
          exact hframe _ (by simp) (by simp)
      · refine I.time.congr fun x hx => ?_
        rw [List.mem_singleton.mp hx, ← hl .timeQueue (by simp) (by simp)]
        exact hframe _ (by simp) (by simp)

theorem destroy (I : Idle s cs) (hec : ec ∈ cs) :
    ∃ s' cs', destroy s ec = .ok ([], s') ∧ Idle s' cs' := by
  obtain ⟨count, hcount⟩ := Option.isSome_iff_exists.mp ((I.live ec).mp hec)
  obtain ⟨ys, zs, rfl⟩ := List.append_of_mem hec
  have R := I.all
  rw [List.map_append, List.map_cons] at R
  have hnd : (ys ++ ec :: zs).Nodup := (List.nodup_cons.mp I.all.nodup).2.of_map
  have hout : ec ∉ ys ++ zs := by
    have hperm : (ys ++ ec :: zs).Perm (ec :: (ys ++ zs)) := List.perm_middle
    exact (List.nodup_cons.mp (hperm.nodup_iff.mp hnd)).1
  -- only the count's own link in the list of all counts goes
  have hframe : ∀ x, (∀ ec, x ≠ .ecQueue ec) → x ≠ .allCounts →
      (s.links.remove (.ecQueue ec) x).next = (s.links x).next ∧
        (s.links.remove (.ecQueue ec) x).prev = (s.links x).prev := by
    intro x h1 h2
    refine R.remove_frame ?_
    intro hx
    rcases List.mem_cons.mp hx with hx | hx
    · exact h2 hx
    · rw [← List.map_cons, ← List.map_append] at hx
      obtain ⟨ec', -, hec'⟩ := List.mem_map.mp hx
      exact h1 ec' hec'.symm
  refine ⟨{ s with
      links := s.links.remove (.ecQueue ec)
      counts := Function.update s.counts ec none }, ys ++ zs, ?_, ?_, ?_, ?_, ?_, ?_, I.idle⟩
  · simp only [Events.destroy, hcount, I.unblockEvent_eq hec]
    rfl
  · rw [List.map_append]
    exact R.remove
  · -- a count is live when it was and is not this one
    intro ec'
    by_cases h : ec' = ec
    · subst h
      simpa using hout
    · simpa [h] using I.live ec'
  · intro ec' h
    by_cases hne : ec' = ec
    · subst hne
      exact Function.update_self ..
    · exact (Function.update_of_ne hne ..).trans (I.bound ec' h)
  · intro ec' hec'
    have hold : ec' ∈ ys ++ ec :: zs := by
      rcases List.mem_append.mp hec' with h | h
      · exact List.mem_append_left _ h
      · exact List.mem_append_right _ (List.mem_cons_of_mem _ h)
    exact (I.wait ec' hold).congr fun x hx => by
      rw [List.mem_singleton.mp hx]
      exact hframe _ (by simp) (by simp)
  · exact I.time.congr fun x hx => by
      rw [List.mem_singleton.mp hx]
      exact hframe _ (by simp) (by simp)

theorem advance (I : Idle s cs) (hec : ec ∈ cs) (increment : Value) :
    ∃ s', advance s ec increment = .ok ([], s') ∧ Idle s' cs := by
  obtain ⟨count, hcount⟩ := Option.isSome_iff_exists.mp ((I.live ec).mp hec)
  have I' := I.setValue hec count (count.value + increment)
  have hunblock := I'.unblockEvent_eq hec (count.value + increment) false
  simp only [Events.advance, hcount, hunblock]
  refine ⟨_, rfl, ?_⟩
  dsimp only
  split
  · exact I'.congr (fun _ _ _ => rfl) rfl rfl I'.idle
  · exact I'

theorem syncReceiver (I : Idle s cs) (hec : ec ∈ cs) (count : EventCount) (rxVal : Value) :
    ∃ s', syncReceiver s ec count rxVal = .ok (currentValue count rxVal, s') ∧ Idle s' cs := by
  by_cases hrx : count.epType = .rx
  · have I' := I.setValue hec count rxVal
    have hunblock := I'.unblockEvent_eq hec rxVal false
    simp only [Events.syncReceiver, currentValue, if_pos hrx, hunblock]
    exact ⟨_, rfl, I'⟩
  · simp only [Events.syncReceiver, currentValue, if_neg hrx]
    exact ⟨s, rfl, I⟩

/-- Blocking on a count dereferences a null link. -/
theorem blockEvent_some (I : Idle s cs) (hec : ec ∈ cs) (value : Value) (until_ : Int)
    (answer : TimeoutAnswer) :
    blockEvent s th (some ec) value until_ answer = .error .nullLink := by
  simp only [blockEvent, enqueueWait, enqueue_empty _ _ (I.wait ec hec), bind, Except.bind]

/-- Blocking without a count does as well, when its timeout is added. -/
theorem blockEvent_none (I : Idle s cs) (th : Nat) (value : Value) (until_ : Int) (answer : TimeoutAnswer) :
    if until_ ≠ forever ∧ answer = .added then
      blockEvent s th none value until_ answer = .error .nullLink
    else ∃ s', blockEvent s th none value until_ answer = .ok s' ∧ Idle s' cs := by
  have hheads : ∀ x, (∀ t, x ≠ Node.waitq t) → s.links.init (.waitq th) none x = s.links x :=
    fun x hx => Function.update_of_ne (hx th) ..
  have hblock : ∀ t u, Function.update s.status th (.blocked forever) t = .blocked u →
      u = forever := by
    intro t u h
    by_cases ht : t = th
    · rw [ht, Function.update_self] at h
      cases h
      rfl
    · rw [Function.update_of_ne ht] at h
      exact I.idle t u h
  simp only [blockEvent, enqueueWait, bind, Except.bind]
  by_cases hu : until_ = forever
  · subst hu
    rw [if_neg (by simp), if_pos rfl]
    refine ⟨_, rfl, I.congr (fun x h1 h2 => ?_) rfl rfl hblock⟩
    exact (Function.update_of_ne (h2 th) ..).trans (hheads x h1)
  · rw [if_neg hu]
    cases answer with
    | tooMany =>
        rw [if_neg (by simp)]
        exact ⟨_, rfl, I.congr (fun x h1 _ => hheads x h1) rfl rfl I.idle⟩
    | passed =>
        have hnext : (s.links.init (.waitq th) none).next (.waitq th) = none := by
          simp [Links.next, Links.init]
        rw [if_neg (by simp)]
        simp only [hnext]
        exact ⟨_, rfl, I.congr (fun x h1 _ => hheads x h1) rfl rfl I.idle⟩
    | added =>
        have R : Links.Ring (s.links.init (.waitq th) none) .timeQueue [] :=
          I.time.congr fun x hx => by
            rw [List.mem_singleton.mp hx, hheads _ (by simp)]
            exact ⟨rfl, rfl⟩
        rw [if_pos ⟨hu, rfl⟩]
        simp only [enqueue_empty _ _ R]

end Idle

/-! ## §4. Calls and runs. -/

/-- A call of a thread that runs, on a count that exists. -/
def Call.Valid (s : State) : Call → Prop
  | .create _ => True
  | .destroy ec => (s.counts ec).isSome
  | .advance ec _ => (s.counts ec).isSome
  | .await th ec _ _ => (s.counts ec).isSome ∧ th < s.nThreads ∧ s.status th = .running
  | .awaitUntil th ec _ _ _ _ _ _ =>
      (∀ ec' ∈ ec, (s.counts ec').isSome) ∧ th < s.nThreads ∧ s.status th = .running
  | .wake th => th < s.nThreads

/-- The call links the thread into a queue: it blocks on a count, or without one
and its timeout is added. -/
def Call.Inserts (s : State) : Call → Prop
  | .await _ ec value rxVal =>
      ∃ count, s.counts ec = some count ∧ ecLE value count.value = false ∧
        ecLE value (currentValue count rxVal) = false
  | .awaitUntil _ none _ until_ now _ _ answer =>
      inFuture (deadline until_) now = true ∧ deadline until_ ≠ forever ∧ answer = .added
  | .awaitUntil _ (some ec) value until_ now now' rxVal _ =>
      ∃ count, s.counts ec = some count ∧ ecLE value count.value = false ∧
        now < deadline until_ ∧ ecLE value (currentValue count rxVal) = false ∧
        inFuture (deadline until_) now' = true
  | _ => False

/-- **One call on empty queues** leaves them empty, or inserts and dereferences a null
link. -/
theorem exec_idle {s : State} {cs : List Nat} {c : Call} (I : Idle s cs) (hvalid : c.Valid s) :
    (¬c.Inserts s ∧ ∃ s' cs', exec s c = .ok s' ∧ Idle s' cs') ∨
      (c.Inserts s ∧ exec s c = .error .nullLink) := by
  cases c with
  | create room =>
      obtain ⟨cs', I'⟩ := I.create room
      exact .inl ⟨id, _, cs', rfl, I'⟩
  | destroy ec =>
      obtain ⟨s', cs', hok, I'⟩ := I.destroy ((I.live ec).mpr hvalid)
      exact .inl ⟨id, s', cs', by simp only [exec, hok]; rfl, I'⟩
  | advance ec increment =>
      obtain ⟨s', hok, I'⟩ := I.advance ((I.live ec).mpr hvalid) increment
      exact .inl ⟨id, s', cs, by simp only [exec, hok]; rfl, I'⟩
  | wake th =>
      refine .inl ⟨id, _, cs, rfl, I.congr (fun _ _ _ => rfl) rfl rfl fun t u h => ?_⟩
      by_cases ht : t = th
      · rw [ht] at h
        simp at h
      · exact I.idle t u ((Function.update_of_ne ht ..).symm.trans h)
  | await th ec value rxVal =>
      obtain ⟨hsome, -, -⟩ := hvalid
      have hec := (I.live ec).mpr hsome
      obtain ⟨count, hcount⟩ := Option.isSome_iff_exists.mp hsome
      simp only [exec, await, Call.Inserts, hcount]
      cases hle : ecLE value count.value with
      | true => exact .inl ⟨by simp [hle], s, cs, rfl, I⟩
      | false =>
          obtain ⟨s₁, hsync, I₁⟩ := I.syncReceiver hec count rxVal
          simp only [hsync, bind, Except.bind, ecGT_eq]
          cases hgt : ecLE value (currentValue count rxVal) with
          | true => exact .inl ⟨by simp [hgt], s₁, cs, rfl, I₁⟩
          | false =>
              exact .inr ⟨⟨count, rfl, hle, hgt⟩, I₁.blockEvent_some hec value forever .added⟩
  | awaitUntil th ec value until_ now now' rxVal answer =>
      cases ec with
      | none =>
          simp only [exec, awaitUntil, Call.Inserts]
          cases hfut : inFuture (deadline until_) now with
          | false => exact .inl ⟨by simp, s, cs, rfl, I⟩
          | true =>
              have hblock := I.blockEvent_none th value (deadline until_) answer
              by_cases hadd : deadline until_ ≠ forever ∧ answer = .added
              · rw [if_pos hadd] at hblock
                exact .inr ⟨⟨rfl, hadd⟩, hblock⟩
              · rw [if_neg hadd] at hblock
                obtain ⟨s', hok, I'⟩ := hblock
                exact .inl ⟨fun h => hadd h.2, s', cs, hok, I'⟩
      | some ec =>
          have hsome := hvalid.1 ec rfl
          have hec := (I.live ec).mpr hsome
          obtain ⟨count, hcount⟩ := Option.isSome_iff_exists.mp hsome
          simp only [exec, awaitUntil, Call.Inserts, hcount]
          by_cases hdone : (ecLE value count.value || decide (deadline until_ ≤ now)) = true
          · rw [if_pos hdone]
            refine .inl ⟨?_, s, cs, rfl, I⟩
            rintro ⟨count', hc, hle, hlate, -⟩
            cases hc
            rw [hle, Bool.false_or, decide_eq_true_iff] at hdone
            omega
          · obtain ⟨s₁, hsync, I₁⟩ := I.syncReceiver hec count rxVal
            rw [if_neg hdone]
            simp only [hsync, bind, Except.bind, ecGT_eq]
            simp only [Bool.or_eq_true, decide_eq_true_eq, not_or, Bool.not_eq_true,
              not_le] at hdone
            by_cases hgo : (!ecLE value (currentValue count rxVal) &&
                inFuture (deadline until_) now') = true
            · rw [if_pos hgo]
              rw [Bool.and_eq_true, Bool.not_eq_true'] at hgo
              exact .inr ⟨⟨count, rfl, hdone.1, hdone.2, hgo.1, hgo.2⟩,
                I₁.blockEvent_some hec value (deadline until_) answer⟩
            · rw [if_neg hgo]
              refine .inl ⟨?_, s₁, cs, rfl, I₁⟩
              rintro ⟨count', hc, -, -, hgt, hfut⟩
              cases hc
              rw [hgt, hfut] at hgo
              exact hgo rfl

/-- **A run without insertions** keeps all queues empty. -/
theorem run_idle {n : Nat} {s : State}
    (hrun : Run (fun s c => c.Valid s ∧ ¬c.Inserts s) (fresh n) s) : ∃ cs, Idle s cs := by
  induction hrun with
  | nil => exact ⟨[], Idle.fresh_idle n⟩
  | step hrun hc hexec ih =>
      obtain ⟨cs, I⟩ := ih
      rcases exec_idle I hc.1 with ⟨-, s', cs', hok, I'⟩ | ⟨hins, -⟩
      · rw [hexec] at hok
        cases hok
        exact ⟨cs', I'⟩
      · exact absurd hins hc.2

/-- **The queues along runs**: they are well formed in every state reached by calls
that link no thread into a queue, and the next call keeps them so exactly when
it links none either. -/
theorem queues_wellformed_along_runs {n : Nat} {s : State}
    (hrun : Run (fun s c => c.Valid s ∧ ¬c.Inserts s) (fresh n) s) :
    (∃ waiting timed, WellFormed s waiting timed) ∧
      ∀ c : Call, c.Valid s →
        ((∃ s' waiting timed, exec s c = .ok s' ∧ WellFormed s' waiting timed) ↔
          ¬c.Inserts s) := by
  obtain ⟨cs, I⟩ := run_idle hrun
  refine ⟨⟨_, _, I.wellFormed⟩, fun c hvalid => ?_⟩
  rcases exec_idle I hvalid with ⟨hnot, s', cs', hok, I'⟩ | ⟨hins, herr⟩
  · exact ⟨fun _ => hnot, fun _ => ⟨s', _, _, hok, I'.wellFormed⟩⟩
  · refine ⟨?_, fun h => absurd hins h⟩
    rintro ⟨s', waiting, timed, hok, -⟩
    rw [herr] at hok
    cases hok

/-- A count is made and advanced to 5, and a thread awaits 3. -/
theorem queues_wellformed_small_run :
    ∃ waiting timed, WellFormed
      ((((fresh 1).after (.create true)).after (.advance 0 5)).after (.await 0 0 3 0))
      waiting timed := by
  have hrun : Run (fun s c => c.Valid s ∧ ¬c.Inserts s) (fresh 1)
      ((((fresh 1).after (.create true)).after (.advance 0 5)).after (.await 0 0 3 0)) := by
    refine .step (.step (.step .nil (c := .create true) ⟨trivial, id⟩
      (exec_after (by decide +kernel))) (c := .advance 0 5)
      ⟨show Option.isSome _ = true by decide +kernel, id⟩
      (exec_after (by decide +kernel))) (c := .await 0 0 3 0)
      ⟨⟨by decide +kernel, by decide +kernel, by decide +kernel⟩, ?_⟩
      (exec_after (by decide +kernel))
    rintro ⟨count, hcount, hle, -⟩
    have hfive : (((fresh 1).after (.create true)).after (.advance 0 5)).counts 0
        = some ⟨5, .none⟩ := by decide +kernel
    rw [hcount, Option.some_inj] at hfive
    rw [hfive] at hle
    revert hle
    decide +kernel
  exact (queues_wellformed_along_runs hrun).1

/-- The first thread to await a new count dereferences a null link. -/
theorem await_on_empty_queue_faults :
    Run (fun s c => c.Valid s) (fresh 1) ((fresh 1).after (.create true)) ∧
      (Call.await 0 0 1 0).Valid ((fresh 1).after (.create true)) ∧
      exec ((fresh 1).after (.create true)) (.await 0 0 1 0) = .error .nullLink := by
  refine ⟨.step .nil (c := .create true) trivial (exec_after (by decide +kernel)),
    ⟨by decide +kernel, by decide +kernel, by decide +kernel⟩, ?_⟩
  rfl

end Metta.Events
