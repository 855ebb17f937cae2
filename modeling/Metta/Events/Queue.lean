/-
  Metta.Events.Queue — wait queues as lists of threads.

  `Waiting s ec q` says that the wait queue of `ec` is a well-formed list of
  the threads `q`.  Over it the loops of the source are list functions: the
  search passes a `takeWhile`, unblocking drops one.

    • `enqueue_ring`, `enqueue_empty` — insertion, and the null link it
      follows in an empty queue,
    • `unblockFrom_spec` — the threads at the front that may go, go.
-/
import Metta.Events.Def

namespace Metta.Events

open Metta.Machine

/-! ## §1. Insertion. -/

section Insertion

variable {κ : Type} [LE κ] [DecidableLE κ] {l : Links Node Nat} {head : Node}
  {node : Nat → Node} (key : Nat → κ) (value : κ) {q : List Nat}

/-- The search started at the rest `zs` of a queue. -/
theorem findPlace_ring (R : Links.Ring l head (q.map node))
    (hbase : ∀ t ∈ q, (l (node t)).base = some t) :
    ∀ (zs ys : List Nat) (fuel : Nat), q = ys ++ zs → zs.length < fuel →
      findPlace l head key value fuel (some ((zs.map node).head?.getD head))
        = .ok (((zs.dropWhile (key · ≤ value)).map node).head?.getD head) := by
  intro zs
  induction zs with
  | nil =>
      intro ys fuel hq hfuel
      obtain ⟨n, rfl⟩ : ∃ n, fuel = n + 1 := ⟨fuel - 1, by omega⟩
      simp [findPlace]
  | cons z zs ih =>
      intro ys fuel hq hfuel
      obtain ⟨n, rfl⟩ : ∃ n, fuel = n + 1 := ⟨fuel - 1, by simp at hfuel; omega⟩
      have hz : z ∈ q := hq ▸ List.mem_append_right _ List.mem_cons_self
      have hne : node z ≠ head := by
        intro h
        exact (List.nodup_cons.mp R.nodup).1 (h ▸ List.mem_map_of_mem hz)
      have hnext : l.next (node z) = some ((zs.map node).head?.getD head) := by
        have R' := R
        rw [hq, List.map_append, List.map_cons] at R'
        exact R'.next_elem
      simp only [List.map_cons, List.head?_cons, Option.getD_some, findPlace, if_neg hne,
        hbase z hz]
      by_cases hle : key z ≤ value
      · rw [if_pos hle, hnext, List.dropWhile_cons_of_pos (by simpa using hle)]
        exact ih (ys ++ [z]) n (by rw [hq]; simp) (by simp at hfuel; omega)
      · rw [if_neg hle, List.dropWhile_cons_of_neg (by simpa using hle)]
        rfl

/-- **Insertion into a queue that is not empty**: the thread comes after those with
keys up to its own, as far as these stand in front. -/
theorem enqueue_ring {t fuel : Nat} (R : Links.Ring l head (q.map node))
    (hbase : ∀ t ∈ q, (l (node t)).base = some t) (hq : q ≠ []) (hfuel : q.length < fuel)
    (hnew : node t ∉ head :: q.map node) :
    ∃ l', enqueue fuel l head (node t) key value = .ok l' ∧
      Links.Ring l' head
        ((q.takeWhile (key · ≤ value) ++ t :: q.dropWhile (key · ≤ value)).map node) ∧
      ∀ x, (l' x).base = (l x).base := by
  have hnext : l.next head = some ((q.map node).head?.getD head) := by
    rw [R.next_head]
    cases q with
    | nil => exact absurd rfl hq
    | cons t q => rfl
  have hfind := findPlace_ring key value R hbase q [] fuel rfl hfuel
  refine ⟨_, by rw [enqueue, hnext, hfind]; rfl, ?_, fun x => Links.insertBefore_base ..⟩
  rw [List.map_append, List.map_cons]
  have hsplit : q.map node = (q.takeWhile (key · ≤ value)).map node
      ++ (q.dropWhile (key · ≤ value)).map node := by
    rw [← List.map_append, List.takeWhile_append_dropWhile]
  rw [hsplit] at R hnew
  exact R.insertBefore hnew

/-- **Insertion into an empty queue** dereferences the null that `next` answers. -/
theorem enqueue_empty {n : Node} {fuel : Nat} (R : Links.Ring l head []) :
    enqueue (fuel + 1) l head n key value = .error .nullLink := by
  rw [enqueue, R.next_head]
  rfl

end Insertion

/-! ## §2. Wait queues. -/

/-- The wait queue of `ec` holds the threads `q`, in order. -/
structure Waiting (s : State) (ec : Nat) (q : List Nat) : Prop where
  ring : Links.Ring s.links (.waitQueue ec) (q.map Node.waitq)
  base : ∀ t < s.nThreads, (s.links (.waitq t)).base = some t
  thread : ∀ t ∈ q, t < s.nThreads

namespace Waiting

variable {s : State} {ec : Nat} {q : List Nat}

theorem nodup (W : Waiting s ec q) : q.Nodup :=
  (List.nodup_cons.mp W.ring.nodup).2.of_map

/-- A queue has no more elements than there are threads. -/
theorem length_lt (W : Waiting s ec q) : q.length < s.nThreads + 1 := by
  have hsub : q ⊆ List.range s.nThreads := fun t ht => List.mem_range.mpr (W.thread t ht)
  have hle := (W.nodup.subperm hsub).length_le
  rw [List.length_range] at hle
  omega

/-- The order of a queue is in its links, so it has one. -/
theorem unique {q' : List Nat} (W : Waiting s ec q) (W' : Waiting s ec q') : q = q' := by
  have hseg : ∀ (xs ys : List Nat) (a : Node), Links.Seg s.links a (xs.map .waitq) (.waitQueue ec) →
      Links.Seg s.links a (ys.map .waitq) (.waitQueue ec) → xs = ys := by
    intro xs
    induction xs with
    | nil =>
        intro ys a hx hy
        cases ys with
        | nil => rfl
        | cons y ys => exact absurd (hx.1.symm.trans hy.1.1) (by simp)
    | cons x xs ih =>
        intro ys a hx hy
        cases ys with
        | nil => exact absurd (hy.1.symm.trans hx.1.1) (by simp)
        | cons y ys =>
            have hxy : Node.waitq x = Node.waitq y := hx.1.1.symm.trans hy.1.1
            cases hxy
            rw [ih ys _ hx.2 hy.2]
  exact hseg q q' _ W.ring.seg W'.ring.seg

/-- Taking the first thread off. -/
theorem release {t : Nat} (W : Waiting s ec (t :: q)) (alerted : Bool) :
    Waiting (release s t alerted) ec q where
  ring := @Links.Ring.remove _ _ _ _ _ _ [] _ W.ring
  base u hu := (Links.remove_base ..).trans (W.base u hu)
  thread u hu := W.thread u (List.mem_cons_of_mem _ hu)

end Waiting

/-! ## §3. Unblocking. -/

theorem ecGT_eq (a b : Value) : ecGT a b = !ecLE a b := by
  rw [ecGT, ecLE, ← decide_not]
  exact decide_eq_decide.mpr (by omega)

/-- The value of the count when a thread is about to block on it. -/
def currentValue (count : EventCount) (rxVal : Value) : Value :=
  if count.epType = .rx then rxVal else count.value

/-- What unblocking leaves alone. -/
structure Kept (s s' : State) : Prop where
  nThreads : s'.nThreads = s.nThreads
  waitValue : s'.waitValue = s.waitValue
  waitTime : s'.waitTime = s.waitTime
  counts : s'.counts = s.counts
  nCounts : s'.nCounts = s.nCounts

/-- **The loop of `unblock_event`**: the threads at the front of the queue that may
go are let run, the others stay as they are. -/
theorem unblockFrom_spec {ec : Nat} {value : Value} {alerted : Bool} (fuel : Nat) :
    ∀ {s : State} {q : List Nat}, Waiting s ec q → q.length < fuel →
      ∃ s', unblockFrom ec value alerted fuel s = .ok (q.takeWhile (mayGo s value alerted), s') ∧
        Waiting s' ec (q.dropWhile (mayGo s value alerted)) ∧ Kept s s' ∧
        ∀ t, t ∉ q.takeWhile (mayGo s value alerted) → s'.status t = s.status t := by
  induction fuel with
  | zero => intro s q W hlen; omega
  | succ n ih =>
      intro s q W hlen
      cases q with
      | nil =>
          have hempty : s.links.isEmpty (.waitQueue ec) = true := W.ring.isEmpty_iff.mpr rfl
          refine ⟨s, ?_, W, ⟨rfl, rfl, rfl, rfl, rfl⟩, fun _ _ => rfl⟩
          rw [unblockFrom, if_pos hempty]
          rfl
      | cons t q =>
          have hempty : ¬s.links.isEmpty (.waitQueue ec) = true := fun h => by
            have := W.ring.isEmpty_iff.mp h
            simp at this
          have hnext : s.links.next (.waitQueue ec) = some (.waitq t) := W.ring.next_head
          have hbase := W.base t (W.thread t List.mem_cons_self)
          rw [unblockFrom, if_neg hempty, hnext]
          simp only [hbase]
          by_cases hgo : mayGo s value alerted t = true
          · obtain ⟨s', hrest, W', K, hstatus⟩ :=
              ih (W.release alerted) (by simp at hlen; omega)
            rw [if_pos hgo, List.takeWhile_cons_of_pos hgo, List.dropWhile_cons_of_pos hgo]
            refine ⟨s', ?_, W', ⟨K.nThreads, K.waitValue, K.waitTime, K.counts, K.nCounts⟩, ?_⟩
            · rw [hrest]
              rfl
            · intro u hu
              rw [List.mem_cons, not_or] at hu
              rw [hstatus u hu.2]
              exact Function.update_of_ne hu.1 ..
          · rw [if_neg hgo, List.takeWhile_cons_of_neg hgo, List.dropWhile_cons_of_neg hgo]
            exact ⟨s, rfl, W, ⟨rfl, rfl, rfl, rfl, rfl⟩, fun _ _ => rfl⟩

/-- The state after a call that returns. -/
def State.after (s : State) (c : Call) : State := (exec s c).toOption.getD s

theorem exec_after {s : State} {c : Call} (h : (exec s c).toOption.isSome = true) :
    exec s c = .ok (s.after c) := by
  rw [State.after]
  cases hexec : exec s c with
  | error e => rw [hexec] at h; cases h
  | ok s' => rfl

end Metta.Events
