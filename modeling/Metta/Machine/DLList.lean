/-
  Metta.Machine.DLList — intrusive doubly linked lists
  (kernel/generic/doubly_linked_list.h).

  A link holds the addresses of the next and the previous link and, as
  `base`, the object it is a member of.  Lists are cyclic and start at a head
  that is no element.  `next` answers null for a link that is alone.

    • `Seg` — a path of links, next and prev inverse along it,
    • `Ring` — a well-formed cyclic list of different links,
    • `Ring.insertBefore`, `Ring.remove` — what the operations do to the
      list of elements,
    • `Ring.congr` — a list reads the links of its own members only.
-/
import Mathlib.Tactic

namespace Metta.Machine

universe u v

/-- `dl_link_t`. -/
structure Link (α : Type u) (β : Type v) where
  next : α
  prev : α
  base : Option β

/-- The link at each address. -/
abbrev Links (α : Type u) (β : Type v) := α → Link α β

namespace Links

variable {α : Type u} {β : Type v}

/-! ## §1. The operations. -/

section Operations

variable [DecidableEq α]

/-- `a->next_ = b`. -/
def setNext (l : Links α β) (a b : α) : Links α β := Function.update l a { l a with next := b }

/-- `a->prev_ = b`. -/
def setPrev (l : Links α β) (a b : α) : Links α β := Function.update l a { l a with prev := b }

/-- `a->init(b)`; without an argument `b` is null. -/
def init (l : Links α β) (a : α) (b : Option β) : Links α β := Function.update l a ⟨a, a, b⟩

/-- `a->is_empty()`. -/
def isEmpty (l : Links α β) (a : α) : Bool := (l a).next = a && (l a).prev = a

/-- `a->next()`. -/
def next (l : Links α β) (a : α) : Option α := if (l a).next = a then none else some (l a).next

/-- `a->remove()`; the links of `a` itself stay. -/
def remove (l : Links α β) (a : α) : Links α β :=
  let l := l.setPrev (l a).next (l a).prev
  l.setNext (l a).prev (l a).next

/-- `a->insert_before(n)`, also `a->add_to_tail(n)`. -/
def insertBefore (l : Links α β) (a n : α) : Links α β :=
  let l := l.setNext n a
  let l := l.setPrev n (l a).prev
  let l := l.setNext (l a).prev n
  l.setPrev a n

/-- `a->insert_after(n)`, also `a->add_to_head(n)`. -/
def insertAfter (l : Links α β) (a n : α) : Links α β :=
  let l := l.setNext n (l a).next
  let l := l.setPrev n a
  let l := l.setPrev (l a).next n
  l.setNext a n

/-! ## §2. Single links. -/

@[simp]
theorem setNext_next (l : Links α β) (a b x : α) :
    (l.setNext a b x).next = if x = a then b else (l x).next := by
  by_cases h : x = a
  · subst h; simp [setNext]
  · simp [setNext, h]

@[simp]
theorem setNext_prev (l : Links α β) (a b x : α) : (l.setNext a b x).prev = (l x).prev := by
  by_cases h : x = a
  · subst h; simp [setNext]
  · simp [setNext, h]

@[simp]
theorem setNext_base (l : Links α β) (a b x : α) : (l.setNext a b x).base = (l x).base := by
  by_cases h : x = a
  · subst h; simp [setNext]
  · simp [setNext, h]

@[simp]
theorem setPrev_prev (l : Links α β) (a b x : α) :
    (l.setPrev a b x).prev = if x = a then b else (l x).prev := by
  by_cases h : x = a
  · subst h; simp [setPrev]
  · simp [setPrev, h]

@[simp]
theorem setPrev_next (l : Links α β) (a b x : α) : (l.setPrev a b x).next = (l x).next := by
  by_cases h : x = a
  · subst h; simp [setPrev]
  · simp [setPrev, h]

@[simp]
theorem setPrev_base (l : Links α β) (a b x : α) : (l.setPrev a b x).base = (l x).base := by
  by_cases h : x = a
  · subst h; simp [setPrev]
  · simp [setPrev, h]

@[simp]
theorem remove_base (l : Links α β) (a x : α) : (l.remove a x).base = (l x).base := by
  simp [remove]

@[simp]
theorem insertBefore_base (l : Links α β) (a n x : α) :
    (l.insertBefore a n x).base = (l x).base := by
  simp [insertBefore]

/-- What `insert_before` does to the links of a node that is not in the list. -/
theorem insertBefore_next (l : Links α β) {a n : α} (hna : n ≠ a) (x : α) :
    (l.insertBefore a n x).next
      = if x = (l a).prev then n else if x = n then a else (l x).next := by
  simp [insertBefore, hna.symm]

theorem insertBefore_prev (l : Links α β) {a n : α} (hna : n ≠ a) (x : α) :
    (l.insertBefore a n x).prev
      = if x = a then n else if x = n then (l a).prev else (l x).prev := by
  simp [insertBefore, hna.symm]

@[simp]
theorem insertAfter_base (l : Links α β) (a n x : α) :
    (l.insertAfter a n x).base = (l x).base := by
  simp [insertAfter]

/-- What `insert_after` does to the links of a node that is not in the list. -/
theorem insertAfter_next (l : Links α β) {a n : α} (hna : n ≠ a) (x : α) :
    (l.insertAfter a n x).next
      = if x = a then n else if x = n then (l a).next else (l x).next := by
  simp [insertAfter, hna.symm]

theorem insertAfter_prev (l : Links α β) {a n : α} (hna : n ≠ a) (x : α) :
    (l.insertAfter a n x).prev
      = if x = (l a).next then n else if x = n then a else (l x).prev := by
  simp [insertAfter, hna.symm]

/-- What `remove` does to the links of a list. -/
theorem remove_next (l : Links α β) {a : α} (hprev : (l a).next ≠ a) (x : α) :
    (l.remove a x).next = if x = (l a).prev then (l a).next else (l x).next := by
  simp [remove, hprev.symm]

theorem remove_prev (l : Links α β) (a x : α) :
    (l.remove a x).prev = if x = (l a).next then (l a).prev else (l x).prev := by
  simp [remove]

end Operations

/-! ## §3. Paths. -/

/-- From `a` the links lead through `xs` to `b`, and back. -/
def Seg (l : Links α β) (a : α) : List α → α → Prop
  | [], b => (l a).next = b ∧ (l b).prev = a
  | x :: xs, b => ((l a).next = x ∧ (l x).prev = a) ∧ Seg l x xs b

variable {l l' : Links α β}

theorem seg_append {a b x : α} {ys zs : List α} :
    Seg l a (ys ++ x :: zs) b ↔ Seg l a ys x ∧ Seg l x zs b := by
  induction ys generalizing a with
  | nil => exact Iff.rfl
  | cons y ys ih => simp only [List.cons_append, Seg, ih, and_assoc]

theorem Seg.congr {a b : α} {xs : List α} (h : Seg l a xs b)
    (hnext : ∀ x ∈ a :: xs, (l' x).next = (l x).next)
    (hprev : ∀ x ∈ xs ++ [b], (l' x).prev = (l x).prev) : Seg l' a xs b := by
  induction xs generalizing a with
  | nil => exact ⟨(hnext a (by simp)).trans h.1, (hprev b (by simp)).trans h.2⟩
  | cons x xs ih =>
      refine ⟨⟨(hnext a (by simp)).trans h.1.1, (hprev x (by simp)).trans h.1.2⟩, ?_⟩
      exact ih h.2 (fun y hy => hnext y (List.mem_cons_of_mem _ hy))
        (fun y hy => hprev y (List.mem_cons_of_mem _ hy))

/-- The last link before the end of a path. -/
theorem Seg.prev_eq {a b : α} {xs : List α} (h : Seg l a xs b) :
    (l b).prev = (a :: xs).getLast (by simp) := by
  induction xs generalizing a with
  | nil => exact h.2
  | cons x xs ih => rw [List.getLast_cons (by simp)]; exact ih h.2

/-- The first link after the start of a path. -/
theorem Seg.next_eq {a b : α} {xs : List α} (h : Seg l a xs b) :
    (l a).next = xs.head?.getD b := by
  cases xs with
  | nil => exact h.1
  | cons x xs => exact h.1.1

/-- A path with its last step led to `n` instead of `b`. -/
theorem Seg.retarget {a b n : α} {xs : List α} (h : Seg l a xs b)
    (hnext : ∀ x ∈ (a :: xs).dropLast, (l' x).next = (l x).next)
    (hprev : ∀ x ∈ xs, (l' x).prev = (l x).prev)
    (hlast : (l' ((a :: xs).getLast (by simp))).next = n)
    (hn : (l' n).prev = (a :: xs).getLast (by simp)) : Seg l' a xs n := by
  induction xs generalizing a with
  | nil => exact ⟨hlast, hn⟩
  | cons x xs ih =>
      rw [List.getLast_cons (by simp)] at hlast hn
      refine ⟨⟨(hnext a (by simp)).trans h.1.1, (hprev x (by simp)).trans h.1.2⟩, ?_⟩
      refine ih h.2 (fun y hy => hnext y ?_) (fun y hy => hprev y (List.mem_cons_of_mem _ hy))
        hlast hn
      rw [List.dropLast_cons_of_ne_nil (by simp)]
      exact List.mem_cons_of_mem _ hy

/-- The links say which links are on a path. -/
theorem Seg.unique {a b : α} {xs ys : List α} (hx : Seg l a xs b) (hy : Seg l a ys b)
    (hxs : b ∉ xs) (hys : b ∉ ys) : xs = ys := by
  induction xs generalizing a ys with
  | nil =>
      cases ys with
      | nil => rfl
      | cons y ys => exact absurd (hx.1.symm.trans hy.1.1 ▸ List.mem_cons_self) hys
  | cons x xs ih =>
      cases ys with
      | nil => exact absurd (hy.1.symm.trans hx.1.1 ▸ List.mem_cons_self) hxs
      | cons y ys =>
          obtain rfl : x = y := hx.1.1.symm.trans hy.1.1
          rw [ih hx.2 hy.2 (fun h => hxs (List.mem_cons_of_mem _ h))
            (fun h => hys (List.mem_cons_of_mem _ h))]

theorem Seg.next_prev {a b : α} {xs : List α} (h : Seg l a xs b) : (l (l b).prev).next = b := by
  induction xs generalizing a with
  | nil => rw [h.2, h.1]
  | cons x xs ih => exact ih h.2

/-! ## §4. Rings. -/

/-- A well-formed cyclic list: head `h`, elements `xs` in order. -/
structure Ring (l : Links α β) (h : α) (xs : List α) : Prop where
  nodup : (h :: xs).Nodup
  seg : Seg l h xs h

/-- **A list reads the links of its members only.** -/
theorem Ring.congr {h : α} {xs : List α} (R : Ring l h xs)
    (hsame : ∀ x ∈ h :: xs, (l' x).next = (l x).next ∧ (l' x).prev = (l x).prev) :
    Ring l' h xs where
  nodup := R.nodup
  seg := R.seg.congr (fun x hx => (hsame x hx).1) (fun x hx => (hsame x (by
    rcases List.mem_append.mp hx with hx | hx
    · exact List.mem_cons_of_mem _ hx
    · rw [List.mem_singleton.mp hx]; exact List.mem_cons_self)).2)

theorem Ring.unique {h : α} {xs ys : List α} (hx : Ring l h xs) (hy : Ring l h ys) : xs = ys :=
  hx.seg.unique hy.seg (List.nodup_cons.mp hx.nodup).1 (List.nodup_cons.mp hy.nodup).1

/-- Going on and back again. -/
theorem Ring.prev_next {h x : α} {xs : List α} (R : Ring l h xs) (hx : x ∈ h :: xs) :
    (l (l x).next).prev = x := by
  have hfirst : ∀ {a : α} {ys : List α}, Seg l a ys h → (l (l a).next).prev = a := by
    intro a ys hseg
    cases ys with
    | nil => rw [hseg.1, hseg.2]
    | cons y ys => rw [hseg.1.1, hseg.1.2]
  rcases List.mem_cons.mp hx with rfl | hx
  · exact hfirst R.seg
  · obtain ⟨ys, zs, rfl⟩ := List.append_of_mem hx
    exact hfirst (seg_append.mp R.seg).2

/-- Going back and on again. -/
theorem Ring.next_prev {h x : α} {xs : List α} (R : Ring l h xs) (hx : x ∈ h :: xs) :
    (l (l x).prev).next = x := by
  rcases List.mem_cons.mp hx with rfl | hx
  · exact R.seg.next_prev
  · obtain ⟨ys, zs, rfl⟩ := List.append_of_mem hx
    exact (seg_append.mp R.seg).1.next_prev

/-- The elements of a ring before and after a place in it. -/
theorem Ring.split {h : α} {ys zs : List α} (R : Ring l h (ys ++ zs)) :
    (h :: ys).Nodup ∧ (∀ x ∈ h :: ys, x ∉ zs) ∧ zs.Nodup ∧ Seg l h ys (zs.head?.getD h) := by
  have hnd := R.nodup
  simp only [List.nodup_cons, List.nodup_append, List.mem_append, not_or] at hnd
  refine ⟨List.nodup_cons.mpr ⟨hnd.1.1, hnd.2.1⟩, fun x hx hz => ?_, hnd.2.2.1, ?_⟩
  · rcases List.mem_cons.mp hx with rfl | hx
    · exact hnd.1.2 hz
    · exact hnd.2.2.2 x hx x hz rfl
  · cases zs with
    | nil => simpa using R.seg
    | cons w zs => exact (seg_append.mp R.seg).1

/-! ## §5. Operations on paths. -/

theorem ne_getLast_of_mem_dropLast {xs : List α} (hnd : xs.Nodup) (hne : xs ≠ []) {x : α}
    (hx : x ∈ xs.dropLast) : x ≠ xs.getLast hne := by
  rw [← List.dropLast_append_getLast hne, List.nodup_append] at hnd
  exact hnd.2.2 x hx _ (by simp)

variable [DecidableEq α]

/-- A new link put before the end of a path. -/
theorem Seg.insertBefore {a w n : α} {ys : List α} (h : Seg l a ys w) (hnd : (a :: ys).Nodup)
    (hw : w ∉ ys) (hn : n ∉ a :: ys) (hnw : n ≠ w) :
    Seg (l.insertBefore w n) a ys n ∧
      (l.insertBefore w n n).next = w ∧ (l.insertBefore w n w).prev = n := by
  have hprev := h.prev_eq
  have hmem : (l w).prev ∈ a :: ys := hprev ▸ List.getLast_mem _
  have hnp : n ≠ (l w).prev := fun h' => hn (h' ▸ hmem)
  have hnext' := insertBefore_next l hnw
  have hprev' := insertBefore_prev l hnw
  refine ⟨h.retarget (fun x hx => ?_) (fun x hx => ?_) ?_ ?_, ?_, ?_⟩
  · have hxp : x ≠ (l w).prev := hprev ▸ ne_getLast_of_mem_dropLast hnd _ hx
    have hxn : x ≠ n := fun h' => hn (h' ▸ List.mem_of_mem_dropLast hx)
    rw [hnext', if_neg hxp, if_neg hxn]
  · have hxw : x ≠ w := fun h' => hw (h' ▸ hx)
    have hxn : x ≠ n := fun h' => hn (h' ▸ List.mem_cons_of_mem _ hx)
    rw [hprev', if_neg hxw, if_neg hxn]
  · rw [← hprev, hnext', if_pos rfl]
  · rw [← hprev, hprev', if_neg hnw, if_pos rfl]
  · rw [hnext', if_neg hnp, if_pos rfl]
  · rw [hprev', if_pos rfl]

/-- A path that the new link is not on. -/
theorem Seg.insertBefore_frame {a b w n : α} {xs : List α} (h : Seg l a xs b)
    (hp : (l w).prev ∉ a :: xs) (hw : w ∉ xs ++ [b]) (hn : n ∉ a :: xs) (hnb : n ∉ xs ++ [b])
    (hnw : n ≠ w) : Seg (l.insertBefore w n) a xs b := by
  refine h.congr (fun x hx => ?_) (fun x hx => ?_)
  · have hxp : x ≠ (l w).prev := fun h' => hp (h' ▸ hx)
    have hxn : x ≠ n := fun h' => hn (h' ▸ hx)
    rw [insertBefore_next l hnw, if_neg hxp, if_neg hxn]
  · have hxw : x ≠ w := fun h' => hw (h' ▸ hx)
    have hxn : x ≠ n := fun h' => hnb (h' ▸ hx)
    rw [insertBefore_prev l hnw, if_neg hxw, if_neg hxn]

/-- The end of a path taken out: the path leads to the link after it. -/
theorem Seg.remove {a x : α} {ys : List α} (h : Seg l a ys x) (hnd : (a :: ys).Nodup)
    (hx : (l x).next ≠ x) (hw : (l x).next ∉ ys) : Seg (l.remove x) a ys (l x).next := by
  have hprev := h.prev_eq
  refine h.retarget (fun y hy => ?_) (fun y hy => ?_) ?_ ?_
  · have hyp : y ≠ (l x).prev := hprev ▸ ne_getLast_of_mem_dropLast hnd _ hy
    rw [remove_next l hx, if_neg hyp]
  · have hyw : y ≠ (l x).next := fun h' => hw (h' ▸ hy)
    rw [remove_prev, if_neg hyw]
  · rw [← hprev, remove_next l hx, if_pos rfl]
  · rw [← hprev, remove_prev, if_pos rfl]

/-- A path beyond the link that was taken out. -/
theorem Seg.remove_frame {a b x : α} {xs : List α} (h : Seg l a xs b) (hx : (l x).next ≠ x)
    (hp : (l x).prev ∉ a :: xs) (hw : (l x).next ∉ xs ++ [b]) : Seg (l.remove x) a xs b := by
  refine h.congr (fun y hy => ?_) (fun y hy => ?_)
  · have hyp : y ≠ (l x).prev := fun h' => hp (h' ▸ hy)
    rw [remove_next l hx, if_neg hyp]
  · have hyw : y ≠ (l x).next := fun h' => hw (h' ▸ hy)
    rw [remove_prev, if_neg hyw]

/-! ## §6. Operations on rings. -/

theorem ring_init (l : Links α β) (h : α) (b : Option β) : Ring (l.init h b) h [] where
  nodup := by simp
  seg := by simp [Seg, init]

theorem Ring.isEmpty_iff {h : α} {xs : List α} (R : Ring l h xs) :
    isEmpty l h = true ↔ xs = [] := by
  cases xs with
  | nil => simpa [isEmpty, Seg] using R.seg
  | cons x xs =>
      have hne : x ≠ h := fun hx => by simpa [hx] using R.nodup
      simp [isEmpty, R.seg.1.1, hne]

/-- `next` of the head is the first element, null when there is none. -/
theorem Ring.next_head {h : α} {xs : List α} (R : Ring l h xs) : next l h = xs.head? := by
  cases xs with
  | nil => simp [next, R.seg.1]
  | cons x xs =>
      have hne : x ≠ h := fun hx => by simpa [hx] using R.nodup
      simp [next, R.seg.1.1, hne]

/-- `next` of an element is the element after it, or the head. -/
theorem Ring.next_elem {h x : α} {ys zs : List α} (R : Ring l h (ys ++ x :: zs)) :
    next l x = some (zs.head?.getD h) := by
  have hseg := (seg_append.mp R.seg).2
  have hnext := hseg.next_eq
  have hne : zs.head?.getD h ≠ x := by
    have hnd := R.nodup
    cases zs with
    | nil =>
        intro hx
        simp only [List.head?_nil, Option.getD_none] at hx
        simp [hx] at hnd
    | cons z zs =>
        intro hx
        simp only [List.head?_cons, Option.getD_some] at hx
        simp [hx, List.nodup_append] at hnd
  rw [next, hnext, if_neg hne]

/-- **`insert_before`**: the new link comes before the element it is put before, or
last when that is the head. -/
theorem Ring.insertBefore {h n : α} {ys zs : List α} (R : Ring l h (ys ++ zs))
    (hn : n ∉ h :: (ys ++ zs)) :
    Ring (l.insertBefore (zs.head?.getD h) n) h (ys ++ n :: zs) := by
  obtain ⟨hleft, hapart, hright, hseg⟩ := R.split
  have hnl : n ∉ h :: ys := fun h' => hn (by
    rcases List.mem_cons.mp h' with h' | h'
    · exact h' ▸ List.mem_cons_self
    · exact List.mem_cons_of_mem _ (List.mem_append_left _ h'))
  have hnr : n ∉ zs := fun h' => hn (List.mem_cons_of_mem _ (List.mem_append_right _ h'))
  refine ⟨?_, ?_⟩
  · have hperm : (h :: (ys ++ n :: zs)).Perm (n :: h :: (ys ++ zs)) :=
      (List.Perm.cons _ List.perm_middle).trans (List.Perm.swap _ _ _)
    exact hperm.nodup_iff.mpr (List.nodup_cons.mpr ⟨hn, R.nodup⟩)
  · rw [seg_append]
    cases zs with
    | nil =>
        obtain ⟨h1, h2, h3⟩ := hseg.insertBefore hleft (List.nodup_cons.mp hleft).1 hnl
          fun h' => hnl (h' ▸ List.mem_cons_self)
        exact ⟨h1, h2, h3⟩
    | cons w zs =>
        have hseg' : Seg l h ys w := hseg
        have hwl : w ∉ h :: ys := fun h' => hapart w h' List.mem_cons_self
        have hnw : n ≠ w := fun h' => hnr (h' ▸ List.mem_cons_self)
        have hpl : (l w).prev ∈ h :: ys := hseg'.prev_eq ▸ List.getLast_mem _
        obtain ⟨h1, h2, h3⟩ := hseg'.insertBefore hleft
          (fun h' => hwl (List.mem_cons_of_mem _ h')) hnl hnw
        refine ⟨h1, ⟨h2, h3⟩, (seg_append.mp R.seg).2.insertBefore_frame
          (hapart _ hpl) (fun h' => ?_) hnr (fun h' => ?_) hnw⟩
        · rcases List.mem_append.mp h' with h' | h'
          · exact (List.nodup_cons.mp hright).1 h'
          · exact hwl (List.mem_singleton.mp h' ▸ List.mem_cons_self)
        · rcases List.mem_append.mp h' with h' | h'
          · exact hnr (List.mem_cons_of_mem _ h')
          · exact hnl (List.mem_singleton.mp h' ▸ List.mem_cons_self)

/-- **`insert_after`**: the new link comes after the element. -/
theorem Ring.insertAfter {h n x : α} {ys zs : List α} (R : Ring l h (ys ++ x :: zs))
    (hn : n ∉ h :: (ys ++ x :: zs)) : Ring (l.insertAfter x n) h (ys ++ x :: n :: zs) := by
  have hsplit : ys ++ x :: zs = (ys ++ [x]) ++ zs := by simp
  have hnext : (l x).next = zs.head?.getD h := (seg_append.mp R.seg).2.next_eq
  rw [hsplit] at R hn
  have hprev : (l (zs.head?.getD h)).prev = x := by
    rw [R.split.2.2.2.prev_eq]
    simp
  have hnx : n ≠ x := fun h' => hn (by simp [h'])
  have hw : zs.head?.getD h ∈ h :: (ys ++ [x] ++ zs) := by
    cases zs with
    | nil => exact List.mem_cons_self
    | cons w zs => simp
  have hnw : n ≠ zs.head?.getD h := fun h' => hn (h' ▸ hw)
  have hring := R.insertBefore hn
  have hout : ys ++ [x] ++ n :: zs = ys ++ x :: n :: zs := by simp
  rw [hout] at hring
  refine hring.congr fun y _ => ⟨?_, ?_⟩
  · rw [insertAfter_next l hnx, insertBefore_next l hnw, hprev, hnext]
  · rw [insertAfter_prev l hnx, insertBefore_prev l hnw, hprev, hnext]

/-- **`remove`**: the element is gone, the others keep their order. -/
theorem Ring.remove {h x : α} {ys zs : List α} (R : Ring l h (ys ++ x :: zs)) :
    Ring (l.remove x) h (ys ++ zs) := by
  obtain ⟨hleft, hapart, hright, hseg⟩ := R.split
  have hseg' : Seg l h ys x := hseg
  have hxseg := (seg_append.mp R.seg).2
  have hnext := hxseg.next_eq
  have hxl : x ∉ h :: ys := fun h' => hapart x h' List.mem_cons_self
  have hne : (l x).next ≠ x := by
    have := R.next_elem
    intro h'
    simp [next, h'] at this
  refine ⟨?_, ?_⟩
  · exact R.nodup.sublist (List.Sublist.cons_cons _
      (List.Sublist.append (List.Sublist.refl _) (List.sublist_cons_self _ _)))
  · cases zs with
    | nil =>
        have hw : (l x).next = h := hnext
        have := hseg'.remove hleft hne (hw ▸ (List.nodup_cons.mp hleft).1)
        rw [List.append_nil]
        rwa [hw] at this
    | cons w zs =>
        have hw : (l x).next = w := hnext
        have hwl : w ∉ h :: ys := fun h' => hapart w h' (by simp)
        have hpl : (l x).prev ∈ h :: ys := hseg'.prev_eq ▸ List.getLast_mem _
        have h1 := hseg'.remove hleft hne (hw ▸ fun h' => hwl (List.mem_cons_of_mem _ h'))
        rw [hw] at h1
        refine seg_append.mpr ⟨h1, hxseg.2.remove_frame hne
          (fun h' => hapart _ hpl (List.mem_cons_of_mem _ h')) fun h' => ?_⟩
        rw [hw] at h'
        rcases List.mem_append.mp h' with h' | h'
        · exact (List.nodup_cons.mp (List.nodup_cons.mp hright).2).1 h'
        · exact hwl (List.mem_singleton.mp h' ▸ List.mem_cons_self)

/-- `insert_before` leaves the links outside the list alone. -/
theorem Ring.insertBefore_frame {h n x : α} {ys zs : List α} (R : Ring l h (ys ++ zs))
    (hn : n ∉ h :: (ys ++ zs)) (hx : x ∉ h :: (ys ++ zs)) (hxn : x ≠ n) :
    (l.insertBefore (zs.head?.getD h) n x).next = (l x).next ∧
      (l.insertBefore (zs.head?.getD h) n x).prev = (l x).prev := by
  have hw : zs.head?.getD h ∈ h :: (ys ++ zs) := by
    cases zs with
    | nil => exact List.mem_cons_self
    | cons w zs => exact List.mem_cons_of_mem _ (List.mem_append_right _ List.mem_cons_self)
  have hp : (l (zs.head?.getD h)).prev ∈ h :: (ys ++ zs) := by
    rw [R.split.2.2.2.prev_eq]
    exact List.cons_subset_cons h (List.subset_append_left ys zs) (List.getLast_mem _)
  have hnw : n ≠ zs.head?.getD h := fun h' => hn (h' ▸ hw)
  have hnp : n ≠ (l (zs.head?.getD h)).prev := fun h' => hn (h' ▸ hp)
  have hxw : x ≠ zs.head?.getD h := fun h' => hx (h' ▸ hw)
  have hxp : x ≠ (l (zs.head?.getD h)).prev := fun h' => hx (h' ▸ hp)
  rw [insertBefore_next l hnw, insertBefore_prev l hnw, if_neg hxp, if_neg hxn, if_neg hxw,
    if_neg hxn]
  exact ⟨rfl, rfl⟩

/-- `remove` leaves the links outside the list alone. -/
theorem Ring.remove_frame {h x y : α} {ys zs : List α} (R : Ring l h (ys ++ x :: zs))
    (hy : y ∉ h :: (ys ++ x :: zs)) :
    (l.remove x y).next = (l y).next ∧ (l.remove x y).prev = (l y).prev := by
  have hp : (l x).prev ∈ h :: (ys ++ x :: zs) := by
    rw [(seg_append.mp R.seg).1.prev_eq]
    exact List.cons_subset_cons h (List.subset_append_left ys _) (List.getLast_mem _)
  have hnext : (l x).next = zs.head?.getD h := (seg_append.mp R.seg).2.next_eq
  have hw : (l x).next ∈ h :: (ys ++ x :: zs) := by
    rw [hnext]
    cases zs with
    | nil => exact List.mem_cons_self
    | cons w zs => simp
  have hne : (l x).next ≠ x := by
    have := R.next_elem
    intro h'
    simp [next, h'] at this
  have hyp : y ≠ (l x).prev := fun h' => hy (h' ▸ hp)
  have hyw : y ≠ (l x).next := fun h' => hy (h' ▸ hw)
  rw [remove_next l hne, remove_prev, if_neg hyp, if_neg hyw]
  exact ⟨rfl, rfl⟩

end Links

end Metta.Machine
